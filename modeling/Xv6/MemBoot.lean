import Xv6.MemProcs

/-!
# Boot

`kinit` frees every page of the allocatable range, `kvminit` builds the
kernel's page table with a stack for each slot, and `userinit` makes the
first process.
-/

namespace Xv6.Vm

open Function Transfer Radix Tally List Ends Nat
open ByteVec (Byte)

variable {np : Nat}

/-! ## `kinit` -/

section Init

variable {M : Machine}

theorem freerangeLoop_ok {n : Nat} : ∀ {p : Nat} {k : Kmem}, (∀ i < n, M.IsPage (p + i * 4096)) →
    ∃ k', freerangeLoop M p n k = .ok k' ∧ (k'.free : Multiset Nat)
      = k.free + ((range n).map fun i => p + i * 4096 : List Nat) := by
  induction n with
  | zero =>
    intro p k _
    exact ⟨k, rfl, (add_zero _).symm⟩
  | succ n ih =>
    intro p k h
    have hpage : M.IsPage p := by
      have := h 0 (succ_pos n)
      rwa [zero_mul, add_zero] at this
    have haddr : ∀ i, p + 4096 + i * 4096 = p + (i + 1) * 4096 := fun i => by omega
    obtain ⟨k₁, hk₁, hm, -⟩ := kfree_ok (k := k) hpage
    obtain ⟨k', hk', hfree⟩ := ih (p := p + 4096) (k := k₁) fun i hi => by grind
    have hone := hm.conserve
    rw [add_zero] at hone
    refine ⟨k', ?_, ?_⟩
    · rw [freerangeLoop, hk₁, ok_bind]
      exact hk'
    · rw [hfree, hone, range_succ_eq_map, map_cons, map_map, ← Multiset.cons_coe,
        ← Multiset.singleton_add, zero_mul, add_zero, add_assoc]
      congr 2
      exact congrArg _ (map_congr_left fun i _ => haddr i)

/-- The ghost of a system in which nothing is mapped. -/
def Ghost.empty (np : Nat) : Ghost np := ⟨fun _ => .nil, .nil, fun _ => none⟩

theorem kboot_ok (M : Machine) (np : Nat) (mem : Nat → Page) :
    ∃ S, kboot M np mem = .ok S ∧ KInv M S (Ghost.empty np) [] ∧ TieInv S := by
  obtain ⟨k, hk, hfree⟩ := freerangeLoop_ok (M := M) (p := PGROUNDUP M.kend)
    (n := (M.phystop - PGROUNDUP M.kend) / PGSIZE) (k := ⟨⟨mem, []⟩, []⟩) fun i hi =>
      mem_allPages.mp (mem_map.mpr ⟨i, mem_range.mpr hi, rfl⟩)
  have hvac : Vacant (Proc.empty np) .nil := ⟨rfl, rfl, rfl, rfl, rfl⟩
  refine ⟨KSys.bare np k, ?_, ⟨?_, fun p => .inl hvac, ⟨rfl, fun _ => rfl⟩, ⟨fun f => ?_,
    fun _ _ => rfl, nofun, nofun, nofun⟩⟩, ⟨nofun, nofun, fun _ _ _ => rfl⟩⟩
  · unfold kboot freerange
    rw [hk, ok_bind]
  · have hpipes : pipePages (KSys.bare np k) = ∅ := by
      ext y
      rw [mem_pipePages]
      simp [KSys.bare]
    have hslots : ∑ p, slotPages ((KSys.bare np k).proc p) ((Ghost.empty np).tree p) = 0 :=
      Finset.sum_eq_zero fun p _ => hvac.pages
    have hstacks : ∑ p, ((Ghost.empty np).kstack p).elim (0 : Multiset Nat) (fun pa => {pa}) = 0 :=
      Finset.sum_eq_zero fun p _ => rfl
    rw [inUse, kernPages, hslots, hstacks, hpipes, show (Ghost.empty np).ktree = .nil from rfl,
      Trie.nodes_nil]
    simp only [zero_add, add_zero, Finset.empty_val]
    rw [show (KSys.bare np k).kmem.free = k.free from rfl, hfree]
    exact zero_add _
  · rw [tally_eq_zero fun i h => by cases h]
    rfl

end Init

/-! ## `kvminit` -/

section Kernel

variable {M : Machine} {k k' : Kmem} {t : Table} {pt : Nat}

/-- `kvmmap` adds to the table or panics. -/
theorem kvmmap_ends {va pa sz perm : Nat} (hrep : Rep k.cell t)
    (hown : Custody M.IsPage k.toStore t.nodes) (hname : t.name = some pt) (hpa : pa < 2 ^ 64)
    (hperm : perm < 1024) :
    Ends (fun k' => ∃ t', Becomes k t k' t') (fun _ => True) (kvmmap k pt va pa sz perm) := by
  unfold kvmmap mappages
  split
  · exact .error trivial
  · simp only
    refine .bind (Q := fun r => ∃ t', Becomes k t r.2 t') ?_ ?_
    · refine (mappagesLoop_ends (M := M) (lt_trans hperm (by decide)) hrep hown hname (mul_mod_left ..) hpa
        (.inr ⟨trivial, trivial⟩)).mono ?_
      grind
    · rintro ⟨done, k₁⟩ h
      split
      · exact .ok h
      · exact .error trivial

theorem kstack_mod (p : Nat) : KSTACK p % 4096 = 0 := by
  show (2 ^ 38 - 4096 - (p + 1) * 2 * 4096) % 4096 = 0
  omega

theorem kstack_lt (p : Nat) : KSTACK p < MAXVA := by
  show 2 ^ 38 - 4096 - (p + 1) * 2 * 4096 < 2 ^ 38
  omega

/-- Stacks of different slots are different pages, as far as memory
goes. -/
theorem vpn_kstack_ne {p q : Nat} (hp : p < 2 ^ 20) (hq : q < p) :
    vpn (KSTACK q) ≠ vpn (KSTACK p) := by
  show (2 ^ 38 - 4096 - (q + 1) * 2 * 4096) / 4096 ≠ (2 ^ 38 - 4096 - (p + 1) * 2 * 4096) / 4096
  omega

/-- A stack is mapped at its place. -/
theorem kvmmap_stack {p pa : Nat} (hrep : Rep k.cell t) (hown : Custody M.IsPage k.toStore t.nodes)
    (hname : t.name = some pt) (hpa : pa < 2 ^ 64) :
    Ends (fun k' => ∃ t', Becomes k t k' t' ∧ ∀ key < NPTE ^ 3, t'.get key
        = if key = vpn (KSTACK p) then mapEntry pa (PTE_R ||| PTE_W) else t.get key)
      (fun _ => True) (kvmmap k pt (KSTACK p) pa PGSIZE (PTE_R ||| PTE_W)) := by
  unfold kvmmap
  rw [mappages_one _ _ _ _ (kstack_mod p) (kstack_lt p)]
  refine .bind (mappagesLoop_ends (M := M) (by decide) hrep hown hname (kstack_mod p) hpa
    (.inr ⟨trivial, trivial⟩)) ?_
  rintro ⟨done, k₁⟩ ⟨t', m, hbec, hle, hdone, hmaps⟩
  cases done with
  | false => exact .error trivial
  | true =>
    obtain rfl : m = 1 := hdone.mp rfl
    refine .ok ⟨t', hbec, fun key hkey => ?_⟩
    rw [hmaps key hkey]
    grind

theorem procMapstacks_ends {n : Nat} : ∀ {k : Kmem} {t : Table} {p : Nat} {st : Nat → Nat},
    Rep k.cell t → Custody M.IsPage k.toStore (t.nodes + ∑ i ∈ Finset.range p, {st i}) →
    t.name = some pt →
    (∀ q < p, t.get (vpn (KSTACK q)) = mapEntry (st q) (PTE_R ||| PTE_W)) →
    Ends (fun k' => ∃ (t' : Table) (st' : Nat → Nat), Rep k'.cell t' ∧ t'.name = t.name
        ∧ Moves k.toStore (t.nodes + ∑ i ∈ Finset.range p, {st i}) k'.toStore
          (t'.nodes + ∑ i ∈ Finset.range (p + n), {st' i})
        ∧ ∀ q < p + n, t'.get (vpn (KSTACK q)) = mapEntry (st' q) (PTE_R ||| PTE_W))
      (fun _ => True) (procMapstacks pt n k p) := by
  induction n with
  | zero =>
    intro k t p st hrep _ _ hst
    exact .ok ⟨t, st, hrep, rfl, .refl .., hst⟩
  | succ n ih =>
    intro k t p st hrep hown hname hst
    unfold procMapstacks
    rcases kalloc_cases k with ⟨k₁, he, -⟩ | ⟨pa, k₁, he, hm, -⟩
    · rw [he]
      exact .error trivial
    · rw [he]
      obtain ⟨hfresh, hpage⟩ := Custody.fresh hown hm
      have hm₁ : Moves k.toStore (t.nodes + ∑ i ∈ Finset.range p, {st i}) k₁.toStore
          (t.nodes + (∑ i ∈ Finset.range p, {st i} + {pa})) := by
        rw [← add_assoc]
        exact (hm.add_left _).of_eq (add_zero _) rfl
      have hown₁ := hown.moves hm₁
      have hrep₁ : Rep k₁.cell t := hrep.frame fun y hy =>
        hm.frame y (Multiset.notMem_zero y) (hown.left.notMem_free hy)
      -- there are fewer stacks than pages
      have hp : p < 2 ^ 20 := by
        have hcard := Custody.card_le hown₁
        rw [Multiset.card_add, Multiset.card_add, Multiset.card_singleton,
          Multiset.card_sum] at hcard
        simp only [Multiset.card_singleton, Finset.sum_const, Finset.card_range, smul_eq_mul,
          mul_one] at hcard
        omega
      refine .bind (kvmmap_stack hrep₁ hown₁.left hname (isPage_lt hpage)) ?_
      rintro k₂ ⟨t₂, hbec, hget⟩
      let st₂ := update st p pa
      have hsum : ∑ i ∈ Finset.range (p + 1), ({st₂ i} : Multiset Nat)
          = ∑ i ∈ Finset.range p, {st i} + {pa} := by
        rw [Finset.sum_range_succ, show st₂ p = pa from update_self ..]
        congr 1
        exact Finset.sum_congr rfl fun i hi => by
          rw [show st₂ i = st i from update_of_ne (Finset.mem_range.mp hi).ne ..]
      have hm₂ := hm₁.trans (hbec.moves.add (∑ i ∈ Finset.range p, {st i} + {pa}))
      rw [← hsum] at hm₂
      refine (ih hbec.rep (hown.moves hm₂) (hbec.name.trans hname) fun q hq => ?_).mono ?_
      · rw [hget _ (vpn_lt_of_lt (kstack_lt q))]
        by_cases hqp : q = p
        · grind
        · rw [if_neg (vpn_kstack_ne hp (by omega)), hst q (by omega),
            show st₂ q = st q from update_of_ne hqp ..]
      · rintro k' ⟨t', st', hrep', hname', hm', hst'⟩
        rw [show p + (n + 1) = p + 1 + n by omega]
        exact ⟨t', st', hrep', hname'.trans hbec.name, hm₂.trans hm', hst'⟩

/-- What is there while `kvmmake` works: the table, and nothing else. -/
def Making (k₀ : Kmem) (pt : Nat) (k : Kmem) : Prop :=
  ∃ t : Table, Rep k.cell t ∧ t.name = some pt ∧ Moves k₀.toStore 0 k.toStore t.nodes

theorem kvmmap_making {k₀ : Kmem} (hown : Custody M.IsPage k₀.toStore 0) (va pa sz perm : Nat)
    (hpa : pa < 2 ^ 64) (hperm : perm < 1024) (h : Making k₀ pt k) :
    Ends (Making k₀ pt) (fun _ => True) (kvmmap k pt va pa sz perm) := by
  obtain ⟨t, hrep, hname, hm⟩ := h
  refine (kvmmap_ends hrep (hown.moves hm) hname hpa hperm).mono ?_
  rintro k' ⟨t', hbec⟩
  exact ⟨t', hbec.rep, hbec.name.trans hname, hm.trans hbec.moves⟩

/-- `kvmmake` has a table and a stack for each slot, or it panics. -/
theorem kvmmake_ends (np : Nat) (hown : Custody M.IsPage k.toStore 0) :
    Ends (fun r => ∃ (t : Table) (st : Nat → Nat), Rep r.2.cell t ∧ t.name = some r.1
        ∧ Moves k.toStore 0 r.2.toStore (t.nodes + ∑ i ∈ Finset.range np, {st i})
        ∧ ∀ q < np, t.get (vpn (KSTACK q)) = mapEntry (st q) (PTE_R ||| PTE_W))
      (fun _ => True) (kvmmake M np k) := by
  have hetext : M.etext < 2 ^ 64 := by
    have := M.etext_le
    have := M.kend_le
    have := M.phystop_le
    omega
  unfold kvmmake
  generalize M.etext - KERNBASE = text
  rcases kalloc_cases k with ⟨k₁, he, -⟩ | ⟨pt, k₁, he, hm, -⟩
  · rw [he]
    exact .error trivial
  · rw [he]
    have hmake : Making k pt (k₁.setPage pt (ByteVec.fill PGSIZE 0)) :=
      ⟨.fresh pt 2, rep_fresh (update_self ..), Trie.name_fresh pt,
        (hm.trans (Kmem.moves_setPage (Multiset.mem_singleton_self pt) _)).of_eq rfl
          (Trie.nodes_fresh pt).symm⟩
    refine .bind (kvmmap_making hown _ UART0 _ _ (by decide) (by decide) hmake)
      fun k₂ h₂ => ?_
    refine .bind (kvmmap_making hown _ VIRTIO0 _ _ (by decide) (by decide) h₂)
      fun k₃ h₃ => ?_
    refine .bind (kvmmap_making hown _ PLIC _ _ (by decide) (by decide) h₃) fun k₄ h₄ => ?_
    refine .bind (kvmmap_making hown _ KERNBASE _ _ (by decide) (by decide) h₄) fun k₅ h₅ => ?_
    refine .bind (kvmmap_making hown _ M.etext _ _ hetext (by decide) h₅)
      fun k₆ h₆ => ?_
    refine .bind (kvmmap_making hown _ M.trampoline _ _ (trampoline_lt M) (by decide) h₆)
      fun k₇ h₇ => ?_
    obtain ⟨t, hrep, hname, hm₇⟩ := h₇
    have hzero : t.nodes + ∑ i ∈ Finset.range 0, ({id i} : Multiset Nat) = t.nodes := add_zero _
    have hown₇ : Custody M.IsPage k₇.toStore (t.nodes + ∑ i ∈ Finset.range 0, {id i}) :=
      hzero.symm ▸ hown.moves hm₇
    refine .bind (procMapstacks_ends hrep hown₇ hname nofun) ?_
    rintro k' ⟨t', st, hrep', hname', hm', hst⟩
    rw [zero_add] at hm' hst
    exact .ok ⟨t', st, hrep', hname'.trans hname, hm₇.trans (hm'.of_eq hzero rfl), hst⟩

end Kernel

section Kvminit

variable {M : Machine} {S S' : KSys np} {g : Ghost np}

theorem kvminit_inv (hi : KInv M S g []) (ht : TieInv S) (hnone : S.kpgtbl = none) {pt : Nat}
    {k : Kmem} (hrun : kvmmake M np S.kmem = .ok (pt, k)) :
    ∃ g', KInv M { S.setMem k with kpgtbl := some pt } g' []
      ∧ TieInv ({ S.setMem k with kpgtbl := some pt } : KSys np) := by
  obtain ⟨t, st, hrep, hname, hm, hst⟩ :=
    (kvmmake_ends np (hi.owned.mono (Multiset.zero_le _))).of_ok hrun
  obtain ⟨hnil, hno⟩ : g.ktree = .nil ∧ ∀ p, g.kstack p = none := by
    have h := hi.kern
    unfold KernInv at h
    rwa [hnone] at h
  have hkern : kernPages g = 0 := by
    have hstacks : ∑ p, (g.kstack p).elim (0 : Multiset Nat) (fun pa => {pa}) = 0 :=
      Finset.sum_eq_zero fun p _ => by rw [hno p]; rfl
    rw [kernPages, hnil, hstacks, Trie.nodes_nil, add_zero]
  let g' : Ghost np := { g with ktree := t, kstack := fun p => some (st p) }
  have hkern' : kernPages g' = t.nodes + ∑ i ∈ Finset.range np, {st i} := by
    rw [kernPages, ← Fin.sum_univ_eq_sum_range (fun i => ({st i} : Multiset Nat)) np]
    rfl
  have hown := hi.owned
  rw [inUse, hkern, zero_add] at hown
  have hrest : Custody M.IsPage S.kmem.toStore
      (0 + (∑ q, slotPages (S.proc q) (g.tree q) + (pipePages S).val)) := by
    rw [zero_add]
    exact hown
  have hkeep : ∀ y, y ∈ ∑ q, slotPages (S.proc q) (g.tree q) + (pipePages S).val →
      k.cell y = S.kmem.cell y := fun y hy => hrest.keeps hm hy
  refine ⟨g', ⟨?_, fun q => ?_, ⟨hrep, hname, fun p => ⟨st p, rfl, kstack_lt p, hst p p.isLt⟩⟩, ?_⟩,
    ht.parent, ht.init, ht.files⟩
  · have hc := (hm.add (∑ q, slotPages (S.proc q) (g.tree q) + (pipePages S).val)).conserve
    rw [inUse, hkern', ← hi.total, inUse, hkern, add_assoc]
    rw [zero_add] at hc ⊢
    exact hc
  · refine (hi.slot q).frame fun y hy => hkeep y ?_
    exact Multiset.mem_add.mpr (.inl (Multiset.mem_sum.mpr ⟨q, Finset.mem_univ q, hy⟩))
  · refine hi.file.of_same ⟨fun _ => rfl, fun _ => rfl, fun _ => rfl, fun f hf b => ?_⟩ hi.file.count
      hi.file.idle
    show (k.cell _).word 4 _ = (S.kmem.cell _).word 4 _
    rw [hkeep _ (Multiset.mem_add.mpr (.inr (mem_pipePages.mpr ⟨f, hf, rfl⟩)))]

end Kvminit

/-! ## `userinit` -/

section Userinit

variable {M : Machine} {S S' : KSys np} {g : Ghost np}

/-- The code of the first process is mapped at the bottom, or the page
for it is lost and nothing is mapped. -/
theorem uvminit_ends {k : Kmem} {t : Table} {pt tf : Nat} (hrep : Rep k.cell t)
    (hown : Custody M.IsPage k.toStore (spacePages t 0 + {tf})) (hname : t.name = some pt)
    (hs : Space M t tf 0) (src : List Byte) :
    Ends (fun k' => ∃ t', Reshapes M tf k t 0 k' t' 1
      ∨ Rep k'.cell t' ∧ t'.name = some pt ∧ t'.get 0 = 0
        ∧ Custody M.IsPage k'.toStore (t'.nodes + {tf})) (fun _ => True) (uvminit k pt src) := by
  have hnodes : spacePages t 0 = t.nodes := add_zero _
  rw [hnodes] at hown
  have hzero : t.get 0 = 0 := hs.user.none 0 (le_refl 0) (by decide)
  unfold uvminit
  split
  · exact .error trivial
  · rcases kalloc_cases k with ⟨k₁, he, -⟩ | ⟨mem, k₁, he, hm, -⟩
    · rw [he]
      exact .error trivial
    · rw [he]
      obtain ⟨-, hpage⟩ := Custody.fresh hown.left hm
      have hperm : PTE_W ||| PTE_R ||| PTE_X ||| PTE_U < 1024 := by decide
      obtain ⟨done, k₂, t', hrun, hrep', hname', -, hmoves, -, -, hget⟩ :=
        mapPage hrep hown.left hname hm (show 0 < USERTOP by decide) hzero hperm (ByteVec.fill PGSIZE 0)
      rw [zero_mul] at hrun
      simp only [hrun, ok_bind]
      have hown' := hown.left.moves hmoves
      have hout : ∀ x ∈ t'.nodes, x ≠ mem := fun x hx hc =>
        hown'.notMem_left (Multiset.mem_singleton_self mem) (hc ▸ hx)
      have hrep'' : ∀ v, Rep (k₂.setPage mem v).cell t' := fun v => hrep'.frame fun x hx =>
        update_of_ne (hout x hx) ..
      have hmoves' : ∀ v, Moves k.toStore t.nodes (k₂.setPage mem v).toStore (t'.nodes + {mem}) :=
        fun v => hmoves.trans (Kmem.moves_setPage (by simp) v)
      refine .ok ⟨t', ?_⟩
      cases done with
      | true =>
        have hleaf : t'.get 0 = mapEntry mem (PTE_W ||| PTE_R ||| PTE_X ||| PTE_U) := by
          rw [hget 0 (by decide), if_pos ⟨rfl, rfl⟩]
        have hkeep : ∀ key < NPTE ^ 3, key ≠ 0 → t'.get key = t.get key := fun key hkey hne => by
          rw [hget key hkey, if_neg fun hc => hne hc.2]
        have hu : UserPart t' 1 := by
          refine ⟨by decide, fun key hkey => ?_, fun key h1 h2 => ?_⟩
          · obtain rfl : key = 0 := by omega
            rw [hleaf]
            exact userFlags_leaf 0 mem
          · rw [hkeep key (key_lt_of_userTop h2) (by omega)]
            exact hs.user.none key (zero_le _) h2
        refine .inl ⟨hrep'' _, hname', hs.of_top hu fun key hkey htop => hkeep key hkey ?_, ?_⟩
        · grind
        · rw [hnodes, spacePages, leafPages, leafPages, add_zero, hleaf, isPage_pa hpage hperm]
          exact hmoves' _
      | false =>
        refine .inr ⟨hrep'' _, hname'.trans hname, ?_, ?_⟩
        · rw [hget 0 (by decide), if_neg (by simp), hzero]
        · refine (hown.moves ((hmoves' _).add {tf})).mono ?_
          simp

/-- The registers of the first process. -/
theorem userinit_stores (k : Kmem) (tf : Nat) :
    let k₁ := k.setPage tf ((k.cell tf).setWord 8 epcOff 0)
    Stores k {tf} (k₁.setPage tf ((k₁.cell tf).setWord 8 spOff PGSIZE)) :=
  have hself : tf ∈ ({tf} : Multiset Nat) := Multiset.mem_singleton_self tf
  (Stores.setPage hself _).trans (.setPage hself _)

theorem userinit_inv (hi : KInv M S g []) (ht : TieInv S) (hnone : S.initproc = none)
    {initcode : List Byte} (hrun : userinit M S initcode = .ok S') (hfault : ¬firstFaults S') :
    ∃ g', KInv M S' g' [] ∧ TieInv S' := by
  have hvac : ∀ q, (S.proc q).state = .unused → Vacant (S.proc q) .nil := fun q hq => by
    have h := hi.vacant hq
    exact ⟨h.state, h.pagetable, h.trapframe, h.sz, rfl⟩
  obtain ⟨r, S₁, hrun₁, hres⟩ := allocproc_ok (hi.owned.mono (Multiset.zero_le _)) hvac
  unfold userinit at hrun
  rw [hrun₁, ok_bind] at hrun
  cases r with
  | none => cases hrun
  | some q =>
    obtain ⟨hu, t, pt, tf, hs₁, hl₁, hself₁⟩ := hres
    have hnil : g.tree q = .nil := (hi.vacant hu).tree
    have hi₁ := hi.slotStep (hnil.symm ▸ hs₁) (by rw [hself₁]; rfl)
    have htree₁ : (g.setTree q t).tree q = t := update_self ..
    have hsz₁ : (S₁.proc q).sz = 0 := by
      rw [hself₁]
      exact (hi.vacant hu).sz
    have hspace : Space M t tf 0 := by
      have h := hl₁.space
      rwa [hsz₁] at h
    have hown₁ := hi₁.slot_owned q
    rw [htree₁, hl₁.pages, hsz₁] at hown₁
    have hends := uvminit_ends hl₁.rep hown₁ hl₁.name hspace initcode
    simp only [hl₁.pagetable, hl₁.trapframe] at hrun
    cases hk : uvminit S₁.kmem pt initcode with
    | error e =>
      rw [hk] at hrun
      cases hrun
    | ok k =>
      rw [hk, ok_bind] at hrun
      have hst₁ : (S₁.proc q).state ≠ .unused := by rw [hself₁]; nofun
      have hst := userinit_stores k tf
      simp only at hst
      generalize hk' : Kmem.setPage _ _ _ = k' at hst
      simp only [hk'] at hrun
      cases hrun
      obtain ⟨t', hre | ⟨hrep', hname', hzero, hown'⟩⟩ := hends.of_ok hk
      · -- the size is recorded, then the registers are set
        rw [show 1 = npg PGSIZE by decide] at hre
        let S₂ := (S₁.setMem k).setProc q { S₁.proc q with sz := PGSIZE }
        have hx₂ : S₂.proc q = { S₁.proc q with sz := PGSIZE } := setProc_proc_self ..
        have hl₂ : Lives M k.cell { S₁.proc q with sz := PGSIZE } t' pt tf :=
          ⟨hl₁.pagetable, hl₁.trapframe, hre.rep, hre.name.trans hl₁.name, hre.space⟩
        have hm₂ : Moves S₁.kmem.toStore (spacePages t (npg (S₁.proc q).sz) + {tf}) k.toStore
            (spacePages t' (npg PGSIZE) + {tf}) := by
          rw [hsz₁]
          exact hre.moves.add {tf}
        have hs₂ : SlotStep M S₁ q ((g.setTree q t).tree q) S₂ t' := by
          rw [htree₁]
          exact hl₁.step hl₂ hst₁ hm₂
        have hi₂ := hi₁.slotStep hs₂ (by rw [hx₂])
        have htree₂ : ((g.setTree q t).setTree q t').tree q = t' := update_self ..
        have hl₂' : Lives M S₂.kmem.cell (S₂.proc q) (((g.setTree q t).setTree q t').tree q) pt tf := by
          rw [hx₂, htree₂]
          exact hl₂
        have hs₃ := Stores.trapframe hl₂' (by rw [hx₂]; exact hst₁) (hi₂.slot_owned q) hst
        have hi₃ := hi₂.slotStep hs₃ rfl
        generalize hS' : ({ (S₁.setMem k').setProc q _ with initproc := some q, iref := _ } : KSys np) = S'
        have hself' : SameOwner (S₂.proc q) (S'.proc q) ∧ (S'.proc q).state = .runnable
            ∧ (S'.proc q).parent = (S₁.proc q).parent := by
          rw [← hS', hx₂]
          show SameOwner _ (update S₁.proc q _ q)
            ∧ (update S₁.proc q _ q : Proc np).state = .runnable
            ∧ (update S₁.proc q _ q : Proc np).parent = _
          rw [update_self]
          exact ⟨⟨hl₁.trapframe.symm, rfl, hl₁.pagetable.symm, rfl, iff_of_false nofun hst₁⟩, rfl, rfl⟩
        obtain ⟨howner, hrunnable, hpar⟩ := hself'
        have hothers : ∀ r ≠ q, S'.proc r = S₁.proc r := fun r hr => by
          rw [← hS']
          exact update_of_ne hr ..
        have hrun' : ∀ r, (S.proc r).state = .runnable → (S'.proc r).state = .runnable := fun r hr => by
          have hrq : r ≠ q := fun hc => by
            rw [hc, hu] at hr
            cases hr
          rw [hothers r hrq, hs₁.others r hrq, hr]
        refine ⟨_, hi₃.congr (by rw [← hS']; rfl) (by rw [← hS']; rfl) (by rw [← hS']; rfl)
          fun r => ?_, fun r s hr => ?_, fun r hr => ?_, fun r hr fd => ?_⟩
        · by_cases hrq : r = q
          · rw [hrq]
            exact howner
          · rw [hothers r hrq, setMem_proc, setProc_proc_ne _ hrq]
            exact .refl _
        · by_cases hrq : r = q
          · rw [hrq, hpar, hself₁] at hr
            exact absurd hu (ht.parent q s hr).1
          · rw [hothers r hrq, hs₁.others r hrq] at hr ⊢
            exact (ht.parent r s hr).imp_right (hrun' s)
        · grind
        · by_cases hrq : r = q
          · grind
          · rw [hothers r hrq, hs₁.others r hrq] at hr ⊢
            exact ht.files r hr fd
      · -- nothing is mapped at the address of the first instruction
        refine absurd (fun p pt' hp hpt => ?_) hfault
        cases hp
        obtain rfl : pt = pt' := by simp_all
        show walkaddr k' pt 0 = 0
        have hkeep : ∀ x ∈ t'.nodes, k'.cell x = k.cell x := fun x hx => hst.frame x fun hc =>
          hown'.notMem_left hc hx
        rw [walkaddr_eq (hrep'.frame hkeep) (fun x hx => hown'.left.ok_owned hx) hname',
          show vpn 0 = 0 from rfl, hzero, if_neg fun hc => ?_]
        rw [pteHas_zero] at hc
        cases hc.2.1

end Userinit

end Xv6.Vm
