import Xv6.MemRun

/-!
# The role of each page

What the invariant says about a state, read from memory alone: the page
tables as they lie there (`nodeAt`, `lookup`), the shape of every
address space, and for each page of the allocatable range the one role
it is in.
-/

namespace Xv6.Vm

open Transfer Radix Tally StepSystem Multiset Nat

variable {np : Nat}

/-! ## Page tables in memory -/

/-- Entry `i` of a page-table page. -/
def entry (mem : Nat → Page) (pg : Nat) (i : Fin NPTE) : Nat := (mem pg).word 8 (8 * i.val)

/-- The page at the end of a path of valid entries. -/
def nodeAt (mem : Nat → Page) (pg : Nat) : List (Fin NPTE) → Option Nat
  | [] => some pg
  | i :: path =>
      if pteHas (entry mem pg i) PTE_V = true then nodeAt mem (PTE2PA (entry mem pg i)) path
      else none

/-- The entry for page number `key` in a table of the given height. -/
def lookup (mem : Nat → Page) : Nat → Nat → Nat → Nat
  | 0, pg, key => entry mem pg (digit NPTE 0 key)
  | level + 1, pg, key =>
      let e := entry mem pg (digit NPTE (level + 1) key)
      if pteHas e PTE_V = true then lookup mem level (PTE2PA e) key else 0

/-- Valid entries have a permission at the bottom and none above. -/
def WellFormed (mem : Nat → Page) : Nat → Nat → Prop
  | 0, pg => ∀ i, pteHas (entry mem pg i) PTE_V = true →
      pteHas (entry mem pg i) (PTE_R ||| PTE_W ||| PTE_X) = true
  | level + 1, pg => ∀ i, pteHas (entry mem pg i) PTE_V = true →
      pteHas (entry mem pg i) (PTE_R ||| PTE_W ||| PTE_X) = false
        ∧ WellFormed mem level (PTE2PA (entry mem pg i))

section Tables

variable {M : Machine} {mem : Nat → Page} {n pg : Nat} {t : PTree n}

/-- An entry above the bottom is that of a subtree. -/
theorem link_cases (hok : ∀ x ∈ t.nodes, M.IsPage x) : (t = .nil ∧ pteHas (link t.name) PTE_V = false)
    ∨ ∃ pg, t.name = some pg ∧ pteHas (link t.name) PTE_V = true ∧ PTE2PA (link t.name) = pg
      ∧ pteHas (link t.name) (PTE_R ||| PTE_W ||| PTE_X) = false := by
  cases hname : t.name with
  | none => exact .inl ⟨Trie.eq_nil_of_name hname, pteHas_zero _⟩
  | some pg =>
    obtain ⟨h1, h2, h3, -⟩ := link_some (hok pg (Trie.mem_nodes_of_name hname))
    exact .inr ⟨pg, rfl, h1, h2, h3⟩

theorem nodeAt_eq (hrep : Rep mem t) (hok : ∀ x ∈ t.nodes, M.IsPage x) (hname : t.name = some pg)
    {path : List (Fin NPTE)} (hlen : path.length ≤ n) : nodeAt mem pg path = t.nameAt path := by
  induction t generalizing pg path with
  | nil => cases hname
  | leaf a val =>
    cases hname
    cases path with
    | nil => rfl
    | cons i path => cases hlen
  | node a kid ih =>
    cases hname
    cases path with
    | nil => rfl
    | cons i path =>
      have hkid : ∀ x ∈ (kid i).nodes, M.IsPage x := fun x hx => hok x (Trie.mem_node_of_kid hx)
      have hent : entry mem a i = link (kid i).name := (hrep i).1
      rw [nodeAt, hent]
      rcases link_cases hkid with ⟨hnil, hv⟩ | ⟨pg', hpg', hv, hpa, -⟩
      · rw [if_neg (by rw [hv]; nofun)]
        show none = (kid i).nameAt path
        rw [hnil, Trie.nameAt_nil]
      · rw [if_pos hv, hpa]
        exact ih i (hrep i).2 hkid hpg' (le_of_succ_le_succ hlen)

theorem lookup_eq (hrep : Rep mem t) (hok : ∀ x ∈ t.nodes, M.IsPage x) (hname : t.name = some pg)
    (key : Nat) : lookup mem n pg key = t.get key := by
  induction t generalizing pg with
  | nil => cases hname
  | leaf a val =>
    cases hname
    exact hrep (digit NPTE 0 key)
  | @node n a kid ih =>
    cases hname
    let i := digit NPTE (n + 1) key
    have hkid : ∀ x ∈ (kid i).nodes, M.IsPage x := fun x hx => hok x (Trie.mem_node_of_kid hx)
    have hent : entry mem a i = link (kid i).name := (hrep i).1
    show (if pteHas (entry mem a i) PTE_V = true then lookup mem n (PTE2PA (entry mem a i)) key
      else 0) = (kid i).get key
    rw [hent]
    rcases link_cases hkid with ⟨hnil, hv⟩ | ⟨pg', hpg', hv, hpa, -⟩
    · simp_all
    · rw [if_pos hv, hpa]
      exact ih i (hrep i).2 hkid hpg'

theorem wellFormed_of (hrep : Rep mem t) (hok : ∀ x ∈ t.nodes, M.IsPage x) (hname : t.name = some pg)
    (hleaf : ∀ key, pteHas (t.get key) PTE_V = true →
      pteHas (t.get key) (PTE_R ||| PTE_W ||| PTE_X) = true) : WellFormed mem n pg := by
  induction t generalizing pg with
  | nil => cases hname
  | leaf a val =>
    cases hname
    intro i
    have h := hleaf (compose NPTE 0 i.val 0)
    rw [Trie.get_leaf_compose] at h
    rw [show entry mem a i = val i from hrep i]
    exact h
  | @node m a kid ih =>
    cases hname
    intro i hv
    have hkid : ∀ x ∈ (kid i).nodes, M.IsPage x := fun x hx => hok x (Trie.mem_node_of_kid hx)
    have hent : entry mem a i = link (kid i).name := (hrep i).1
    rw [hent] at hv ⊢
    rcases link_cases hkid with ⟨-, hv'⟩ | ⟨pg', hpg', -, hpa, hnone⟩
    · rw [hv'] at hv
      cases hv
    · rw [hpa]
      refine ⟨hnone, ih i (hrep i).2 hkid hpg' fun key => ?_⟩
      have h := hleaf (compose NPTE (m + 1) i.val key)
      rwa [Trie.get_node_compose] at h

end Tables

/-! ## A small machine -/

/-- Thirty pages. -/
def smallMachine : Machine where
  trampoline := 0x80001000
  etext := 0x80002000
  kend := 0x80002000
  phystop := 0x80020000
  kernbase_lt := by decide
  trampoline_lt := by decide
  etext_le := by decide
  kend_le := by decide
  phystop_le := by decide
  phystop_mod := by decide
  small := by decide

def zeroMem : Nat → Page := fun _ => ByteVec.fill PGSIZE 0

/-- The actions from `kboot` on, and what is asked of the state after
them. -/
def bootRun (acts : List (KAct 2 × List Bool)) (P : KSys 2 → Bool) : Bool :=
  match kboot smallMachine 2 zeroMem with
  | .ok S => (run (kStep smallMachine) S acts).any P
  | .error _ => false

theorem bootRun_spec (acts : List (KAct 2 × List Bool)) (P : KSys 2 → Bool)
    (h : bootRun acts P = true) :
    ∃ S S', kboot smallMachine 2 zeroMem = .ok S ∧ run (kStep smallMachine) S acts = some S'
      ∧ P S' = true := by
  unfold bootRun at h
  split at h
  · grind [Option.any_eq_true]
  · cases h

/-! ## The shape of an address space -/

/-- The table of slot `p` maps the pages up to the size and the two pages
at the top, and nothing else. -/
structure Shape (M : Machine) (S : KSys np) (p : Fin np) (pt tf : Nat) : Prop where
  pagetable : (S.proc p).pagetable = some pt
  frame : (S.proc p).trapframe = some tf
  levels : WellFormed S.kmem.cell 2 pt
  maps : ∀ key < NPTE ^ 3, pteHas (lookup S.kmem.cell 2 pt key) PTE_V = true ↔
    key * PGSIZE < PGROUNDUP (S.proc p).sz ∨ key * PGSIZE = TRAPFRAME ∨ key * PGSIZE = TRAMPOLINE
  trapframe : lookup S.kmem.cell 2 pt (vpn TRAPFRAME) = mapEntry tf (PTE_R ||| PTE_W)
  trampoline : lookup S.kmem.cell 2 pt (vpn TRAMPOLINE) = mapEntry M.trampoline (PTE_R ||| PTE_X)

variable {key pa : Nat}

section Shape

variable {M : Machine} {S S' : KSys np} {g : Ghost np} {p : Fin np} {pt tf : Nat}

/-- A key has a leaf, and is one of those that should, or has nothing. -/
theorem Space.get_cases {t : Table} {n : Nat} (h : Space M t tf n) (hkey : key < NPTE ^ 3) :
    IsLeaf (t.get key) ∧ (key < n ∨ key = USERTOP ∨ key = USERTOP + 1)
      ∨ t.get key = 0 ∧ ¬(key < n ∨ key = USERTOP ∨ key = USERTOP + 1) := by
  have hle := h.user.le
  rcases lt_or_ge key n with hlt | hge
  · exact .inl ⟨h.user.leaf key hlt, .inl hlt⟩
  · rcases lt_trichotomy key USERTOP with hlt | rfl | hgt
    · exact .inr ⟨h.user.none key hge hlt, by omega⟩
    · rw [h.trapframe]
      exact .inl ⟨mapEntry_leaf (by decide) (by decide), .inr (.inl rfl)⟩
    · by_cases htop : key = USERTOP + 1
      · rw [htop, h.trampoline]
        exact .inl ⟨mapEntry_leaf (by decide) (by decide), .inr (.inr rfl)⟩
      · exact .inr ⟨h.above key (by omega) hkey, by omega⟩

theorem Space.valid_iff {t : Table} {n : Nat} (h : Space M t tf n) (hkey : key < NPTE ^ 3) :
    pteHas (t.get key) PTE_V = true ↔ key < n ∨ key = USERTOP ∨ key = USERTOP + 1 := by
  rcases h.get_cases hkey with ⟨hl, hin⟩ | ⟨h0, hout⟩
  · rw [pteHas_v]
    exact iff_of_true (decide_eq_true hl.1) hin
  · rw [h0, pteHas_zero]
    exact iff_of_false nofun hout

theorem Space.perm_of_valid {t : Table} {n : Nat} (h : Space M t tf n)
    (hv : pteHas (t.get key) PTE_V = true) :
    pteHas (t.get key) (PTE_R ||| PTE_W ||| PTE_X) = true := by
  rw [Trie.get_congr (b := key % NPTE ^ 3) (mod_mod ..).symm] at hv ⊢
  rcases h.get_cases (mod_lt key (show 0 < NPTE ^ 3 by decide)) with ⟨hl, -⟩ | ⟨h0, -⟩
  · exact hl.2
  · rw [h0, pteHas_zero] at hv
    cases hv

theorem Lives.shape (h : Lives M S.kmem.cell (S.proc p) (g.tree p) pt tf)
    (hown : Custody M.IsPage S.kmem.toStore (slotPages (S.proc p) (g.tree p))) :
    Shape M S p pt tf := by
  have hsz := h.size_lt hown
  rw [h.pages] at hown
  have hok : ∀ x ∈ (g.tree p).nodes, M.IsPage x := fun x hx => hown.left.left.ok_owned hx
  have hget : ∀ key, lookup S.kmem.cell 2 pt key = (g.tree p).get key := lookup_eq h.rep hok h.name
  refine ⟨h.pagetable, h.trapframe,
    wellFormed_of h.rep hok h.name fun key hv => h.space.perm_of_valid hv, fun key hkey => ?_, ?_, ?_⟩
  · rw [hget, h.space.valid_iff hkey, pgroundup_eq (by omega)]
    show key < ((S.proc p).sz + 4095) / 4096 ∨ key = 2 ^ 26 - 2 ∨ key = 2 ^ 26 - 2 + 1 ↔
      key * 4096 < ((S.proc p).sz + 4095) / 4096 * 4096 ∨ key * 4096 = 2 ^ 38 - 4096 - 4096
        ∨ key * 4096 = 2 ^ 38 - 4096
    omega
  · rw [hget]
    exact h.space.trapframe
  · rw [hget]
    exact h.space.trampoline

/-- In every state that can be reached, each live process has an address
space of the right shape and a size that fits 32 bits, and no call that
a process can make panics, whatever `kalloc` does. -/
theorem address_space_shape {mem : Nat → Page} {acts : List (KAct np × List Bool)}
    (hboot : kboot M np mem = .ok S) (hrun : run (kStep M) S acts = some S') :
    (∀ p, (S'.proc p).state ≠ .unused → ∃ pt tf, Shape M S' p pt tf)
      ∧ (∀ p, (S'.proc p).sz % 2 ^ 32 = (S'.proc p).sz)
      ∧ ∀ (a : KAct np) (fails : List Bool), a.Enabled S' → a.caller ≠ none →
        ∃ o, kcall M (S'.setMem { S'.kmem with fails := fails }) a = .ok o := by
  obtain ⟨g, hi, ht⟩ := run_sound hboot hrun
  refine ⟨fun p hp => ?_, fun p => ?_, fun a fails hen hcall => ?_⟩
  · obtain ⟨pt, tf, hl⟩ := hi.lives hp
    exact ⟨pt, tf, hl.shape (hi.slot_owned p)⟩
  · by_cases hp : (S'.proc p).state = .unused
    · rw [(hi.vacant hp).sz, zero_mod]
    · obtain ⟨pt, tf, hl⟩ := hi.lives hp
      exact mod_eq_of_lt (hl.size_lt (hi.slot_owned p))
  · obtain ⟨o, ho, -⟩ := kcall_next (a := a) (hi.setFails fails) (ht.setMem _) hen hcall
    exact ⟨o, ho⟩

/-- A child that asks for 5000 bytes has three pages. -/
theorem address_space_shape_child : ∃ (S' : KSys 2) (pt tf : Nat), (S'.proc 1).sz = 9096
    ∧ Shape smallMachine S' 1 pt tf := by
  obtain ⟨S, S', hboot, hrun, hP⟩ := bootRun_spec
    [(.userinit [19, 5, 0, 0], []), (.fork 0, []), (.sbrk 1 5000, [])]
    (fun S' => decide ((S'.proc 1).sz = 9096 ∧ (S'.proc 1).state ≠ .unused)) (by decide +kernel)
  have hP := of_decide_eq_true hP
  obtain ⟨pt, tf, hshape⟩ := (address_space_shape hboot hrun).1 1 hP.2
  exact ⟨S', pt, tf, hP.1, hshape⟩

end Shape

/-! ## Roles -/

/-- What a page can be: on the free list; a page of the table of a
process, or of the kernel, at a place in it; a user page of a process at
a page number; a trapframe; the page of a pipe; a kernel stack. -/
inductive Role (np : Nat) where
  | free
  | table (owner : Option (Fin np)) (path : List (Fin NPTE))
  | user (p : Fin np) (key : Nat)
  | trapframe (p : Fin np)
  | pipe
  | kstack (p : Fin np)

/-- The root of a page table. -/
def KSys.root (S : KSys np) : Option (Fin np) → Option Nat
  | none => S.kpgtbl
  | some p => (S.proc p).pagetable

def HasRole (S : KSys np) (pa : Nat) : Role np → Prop
  | .free => pa ∈ S.kmem.free
  | .table owner path => path.length ≤ 2 ∧
      ∃ pt, S.root owner = some pt ∧ nodeAt S.kmem.cell pt path = some pa
  | .user p key => key < vpn TRAPFRAME ∧ ∃ pt, (S.proc p).pagetable = some pt
      ∧ pteHas (lookup S.kmem.cell 2 pt key) PTE_V = true
      ∧ PTE2PA (lookup S.kmem.cell 2 pt key) = pa
  | .trapframe p => (S.proc p).trapframe = some pa
  | .pipe => ∃ f, 0 < (S.file f).ref ∧ (S.file f).type = .pipe ∧ (S.file f).pipe = pa
  | .kstack p => ∃ pt, S.kpgtbl = some pt
      ∧ pteHas (lookup S.kmem.cell 2 pt (vpn (KSTACK p))) PTE_V = true
      ∧ PTE2PA (lookup S.kmem.cell 2 pt (vpn (KSTACK p))) = pa

section Roles

variable {M : Machine} {S S' : KSys np} {g : Ghost np}

/-- The parts that the invariant adds up: three shared ones, and four of
each slot. -/
abbrev Part (np : Nat) := Fin 3 ⊕ Fin 4 × Fin np

def Part.pages (S : KSys np) (g : Ghost np) : Part np → Multiset Nat
  | .inl 0 => S.kmem.free
  | .inl 1 => g.ktree.nodes
  | .inl 2 => (pipePages S).val
  | .inr (0, p) => (g.kstack p).elim 0 fun pa => {pa}
  | .inr (1, p) => (g.tree p).nodes
  | .inr (2, p) => leafPages (g.tree p) 0 (npg (S.proc p).sz)
  | .inr (3, p) => (S.proc p).trapframe.elim 0 fun tf => {tf}

theorem sum_parts (S : KSys np) (g : Ghost np) :
    ∑ c, Part.pages S g c = (S.kmem.free : Multiset Nat) + inUse S g := by
  rw [Fintype.sum_sum_type, Fintype.sum_prod_type, Fin.sum_univ_three, Fin.sum_univ_four, inUse,
    kernPages]
  simp only [Part.pages, slotPages, spacePages, Finset.sum_add_distrib]
  abel

/-- A page is in one part only. -/
theorem KInv.part_unique (hi : KInv M S g []) {c c' : Part np} (h : pa ∈ Part.pages S g c)
    (h' : pa ∈ Part.pages S g c') : c = c' := by
  by_contra hne
  have hnd : (∑ c, Part.pages S g c).Nodup := by
    rw [sum_parts, hi.total]
    exact nodup_allPages M
  rw [← Finset.add_sum_erase _ _ (Finset.mem_univ c)] at hnd
  refine disjoint_left.mp (nodup_add.mp hnd).2.2 h (mem_sum.mpr ⟨c', ?_, h'⟩)
  exact Finset.mem_erase.mpr ⟨Ne.symm hne, Finset.mem_univ c'⟩

theorem KInv.part_nodup (hi : KInv M S g []) (c : Part np) : (Part.pages S g c).Nodup := by
  have hnd : (∑ c, Part.pages S g c).Nodup := by
    rw [sum_parts, hi.total]
    exact nodup_allPages M
  rw [← Finset.add_sum_erase _ _ (Finset.mem_univ c)] at hnd
  exact (nodup_add.mp hnd).1

theorem KInv.exists_part (hi : KInv M S g []) : M.IsPage pa ↔ ∃ c, pa ∈ Part.pages S g c := by
  rw [← mem_allPages, ← mem_coe, ← hi.total, ← sum_parts, mem_sum]
  exact exists_congr fun c => and_iff_right (Finset.mem_univ c)

/-- The part a role belongs to. -/
def Role.part : Role np → Part np
  | .free => .inl 0
  | .table none _ => .inl 1
  | .table (some p) _ => .inr (1, p)
  | .user p _ => .inr (2, p)
  | .trapframe p => .inr (3, p)
  | .pipe => .inl 2
  | .kstack p => .inr (0, p)

/-- The tree of a page table. -/
def Ghost.table (g : Ghost np) (owner : Option (Fin np)) : Table := owner.elim g.ktree g.tree

theorem pages_table (S : KSys np) (g : Ghost np) (owner : Option (Fin np)) (path : List (Fin NPTE)) :
    Part.pages S g (Role.table owner path).part = (g.table owner).nodes := by
  cases owner <;> rfl

/-- A page table lies in memory as its tree says. -/
theorem KInv.root (hi : KInv M S g []) {owner : Option (Fin np)} {pt : Nat}
    (h : S.root owner = some pt) : Rep S.kmem.cell (g.table owner) ∧ (g.table owner).name = some pt := by
  cases owner with
  | none =>
    have hk := hi.kern
    unfold KernInv at hk
    rw [show S.kpgtbl = some pt from h] at hk
    exact ⟨hk.1, hk.2.1⟩
  | some p =>
    have h : (S.proc p).pagetable = some pt := h
    have hp : (S.proc p).state ≠ .unused := fun hu => by
      rw [(hi.vacant hu).pagetable] at h
      cases h
    obtain ⟨pt', tf, hl⟩ := hi.lives hp
    obtain rfl : pt = pt' := Option.some.inj (h.symm.trans hl.pagetable)
    exact ⟨hl.rep, hl.name⟩

/-- A tree with nodes is that of a page table. -/
theorem KInv.exists_root (hi : KInv M S g []) {owner : Option (Fin np)}
    (h : pa ∈ (g.table owner).nodes) : ∃ pt, S.root owner = some pt := by
  have hne : g.table owner ≠ .nil := fun hc => by simp_all
  cases owner with
  | none =>
    cases hpt : S.kpgtbl with
    | some pt => exact ⟨pt, hpt⟩
    | none =>
      have hk := hi.kern
      unfold KernInv at hk
      rw [hpt] at hk
      exact absurd hk.1 hne
  | some p =>
    rcases hi.slot p with hv | ⟨-, pt, tf, hl⟩
    · exact absurd hv.tree hne
    · exact ⟨pt, hl.pagetable⟩

theorem KInv.table_ok (hi : KInv M S g []) {owner : Option (Fin np)} {x : Nat}
    (hx : x ∈ (g.table owner).nodes) : M.IsPage x :=
  hi.exists_part.mpr ⟨_, by rw [pages_table S g owner []]; exact hx⟩

theorem KInv.hasRole_table (hi : KInv M S g []) {owner : Option (Fin np)} {path : List (Fin NPTE)}
    (h : HasRole S pa (.table owner path)) : (g.table owner).nameAt path = some pa := by
  obtain ⟨hlen, pt, hpt, hat⟩ := h
  obtain ⟨hrep, hname⟩ := hi.root hpt
  rwa [nodeAt_eq hrep (fun x hx => hi.table_ok hx) hname hlen] at hat

theorem KInv.lookup_root (hi : KInv M S g []) (owner : Option (Fin np)) {pt : Nat}
    (h : S.root owner = some pt) (key : Nat) :
    lookup S.kmem.cell 2 pt key = (g.table owner).get key := by
  obtain ⟨hrep, hname⟩ := hi.root h
  exact lookup_eq hrep (fun x hx => hi.table_ok hx) hname key

theorem KInv.hasRole_user (hi : KInv M S g []) {p : Fin np} :
    HasRole S pa (.user p key) ↔ key < npg (S.proc p).sz ∧ PTE2PA ((g.tree p).get key) = pa := by
  constructor
  · rintro ⟨hkey, pt, hpt, hv, hpa⟩
    have hget := hi.lookup_root (some p) hpt key
    rw [hget] at hv hpa
    refine ⟨?_, hpa⟩
    have hp : (S.proc p).state ≠ .unused := fun hu => by
      rw [(hi.vacant hu).pagetable] at hpt
      cases hpt
    obtain ⟨pt', tf, hl⟩ := hi.lives hp
    have hkey' : key < 2 ^ 26 - 2 := hkey
    rcases (hl.space.valid_iff (key_lt_of_userTop hkey')).mp hv with h | h | h
    · exact h
    · grind
    · grind
  · rintro ⟨hkey, hpa⟩
    have hp : (S.proc p).state ≠ .unused := fun hu => by
      rw [(hi.vacant hu).sz] at hkey
      exact absurd hkey (not_lt_zero key)
    obtain ⟨pt, tf, hl⟩ := hi.lives hp
    have htop : key < USERTOP := lt_of_lt_of_le hkey hl.space.user.le
    have hget := hi.lookup_root (some p) hl.pagetable key
    refine ⟨htop, pt, hl.pagetable, ?_, by rw [hget]; exact hpa⟩
    rw [hget]
    exact (hl.space.valid_iff (key_lt_of_userTop htop)).mpr (.inl hkey)

theorem KInv.hasRole_kstack (hi : KInv M S g []) {p : Fin np} :
    HasRole S pa (.kstack p) ↔ g.kstack p = some pa := by
  have hpage : ∀ {pa}, g.kstack p = some pa → M.IsPage pa := fun h =>
    hi.exists_part.mpr ⟨.inr (0, p), by
      show _ ∈ (g.kstack p).elim (0 : Multiset Nat) fun pa => {pa}
      rw [h]
      exact mem_singleton_self _⟩
  have hkern := hi.kern
  unfold KernInv at hkern
  cases hpt : S.kpgtbl with
  | none =>
    rw [hpt] at hkern
    refine iff_of_false (fun h => ?_) fun h => ?_
    · obtain ⟨pt, hpt', -⟩ := h
      rw [hpt] at hpt'
      cases hpt'
    · rw [hkern.2 p] at h
      cases h
  | some pt =>
    rw [hpt] at hkern
    obtain ⟨pa', hst, -, hget⟩ := hkern.2.2 p
    have hlook : lookup S.kmem.cell 2 pt (vpn (KSTACK p)) = mapEntry pa' (PTE_R ||| PTE_W) :=
      (hi.lookup_root none hpt _).trans hget
    have hpa' : PTE2PA (mapEntry pa' (PTE_R ||| PTE_W)) = pa' := isPage_pa (hpage hst) (by decide)
    constructor
    · rintro ⟨pt', hpt', -, hpa⟩
      grind
    · intro h
      refine ⟨pt, hpt, ?_, ?_⟩
      · rw [hlook, pteHas_v]
        exact decide_eq_true (mapEntry_v (by decide))
      · grind

/-- A role that a page has puts it into the part of that role. -/
theorem KInv.mem_part (hi : KInv M S g []) {r : Role np} (h : HasRole S pa r) :
    pa ∈ Part.pages S g r.part := by
  cases r with
  | free => exact h
  | table owner path =>
    rw [pages_table]
    exact Trie.nameAt_mem (hi.hasRole_table h)
  | user p key =>
    obtain ⟨hkey, hpa⟩ := hi.hasRole_user.mp h
    exact mem_leafPages.mpr ⟨key, zero_le _, by omega, hpa⟩
  | trapframe p =>
    show pa ∈ (S.proc p).trapframe.elim (0 : Multiset Nat) fun tf => {tf}
    rw [show (S.proc p).trapframe = some pa from h]
    exact mem_singleton_self pa
  | pipe =>
    obtain ⟨f, -, hf, hpa⟩ := h
    exact mem_pipePages.mpr ⟨f, hf, hpa⟩
  | kstack p =>
    show pa ∈ (g.kstack p).elim (0 : Multiset Nat) fun pa => {pa}
    rw [hi.hasRole_kstack.mp h]
    exact mem_singleton_self pa

/-- Two roles of a page in one part are the same. -/
theorem KInv.role_inj (hi : KInv M S g []) {r r' : Role np} (h : HasRole S pa r)
    (h' : HasRole S pa r') (hpart : r.part = r'.part) : r = r' := by
  have hpath : ∀ {owner path path'}, HasRole S pa (.table owner path) →
      HasRole S pa (.table owner path') → path = path' := fun {owner} _ _ h h' => by
    have hnd := hi.part_nodup (Role.table owner []).part
    rw [pages_table] at hnd
    exact Trie.nameAt_inj hnd (hi.hasRole_table h) (hi.hasRole_table h')
  have hkey : ∀ {p key key'}, HasRole S pa (.user p key) → HasRole S pa (.user p key') →
      key = key' := fun {p} _ _ h h' => by
    obtain ⟨h1, h2⟩ := hi.hasRole_user.mp h
    obtain ⟨h1', h2'⟩ := hi.hasRole_user.mp h'
    exact leafPages_inj (hi.part_nodup (.inr (2, p))) (zero_le _) (by omega) (zero_le _)
      (by omega) (h2.trans h2'.symm)
  -- of the pairs of roles, those with the same part are left
  rcases r with _ | ⟨_ | p, path⟩ | ⟨p, key⟩ | p | _ | p <;>
    rcases r' with _ | ⟨_ | p', path'⟩ | ⟨p', key'⟩ | p' | _ | p' <;> cases hpart
  · rfl
  · rw [hpath h h']
  · rw [hpath h h']
  · rw [hkey h h']
  · rfl
  · rfl
  · rfl

/-- A page in some part has a role. -/
theorem KInv.exists_role (hi : KInv M S g []) {c : Part np} (h : pa ∈ Part.pages S g c) :
    ∃ r, HasRole S pa r := by
  have htable : ∀ owner, pa ∈ (g.table owner).nodes → ∃ r, HasRole S pa r := fun owner h => by
    obtain ⟨pt, hpt⟩ := hi.exists_root h
    obtain ⟨hrep, hname⟩ := hi.root hpt
    obtain ⟨path, hlen, hpath⟩ := Trie.exists_nameAt h
    refine ⟨.table owner path, hlen, pt, hpt, ?_⟩
    rw [nodeAt_eq hrep (fun x hx => hi.table_ok hx) hname hlen, hpath]
  match c, h with
  | .inl 0, h => exact ⟨.free, h⟩
  | .inl 1, h => exact htable none h
  | .inl 2, h =>
    obtain ⟨f, hf, hpa⟩ := mem_pipePages.mp h
    refine ⟨.pipe, f, pos_of_ne_zero fun hc => ?_, hf, hpa⟩
    rw [hi.file.idle f hc] at hf
    cases hf
  | .inr (0, p), h =>
    refine ⟨.kstack p, hi.hasRole_kstack.mpr ?_⟩
    have h : pa ∈ (g.kstack p).elim (0 : Multiset Nat) fun pa => {pa} := h
    cases hst : g.kstack p with
    | none =>
      grind
    | some pa' =>
      simp_all
  | .inr (1, p), h => exact htable (some p) h
  | .inr (2, p), h =>
    obtain ⟨key, -, hkey, hpa⟩ := mem_leafPages.mp h
    exact ⟨.user p key, hi.hasRole_user.mpr ⟨by omega, hpa⟩⟩
  | .inr (3, p), h =>
    have h : pa ∈ (S.proc p).trapframe.elim (0 : Multiset Nat) fun tf => {tf} := h
    refine ⟨.trapframe p, ?_⟩
    show (S.proc p).trapframe = some pa
    cases htf : (S.proc p).trapframe with
    | none =>
      grind
    | some tf =>
      simp_all

theorem KInv.role_unique (hi : KInv M S g []) {r r' : Role np} (h : HasRole S pa r)
    (h' : HasRole S pa r') : r = r' :=
  hi.role_inj h h' (hi.part_unique (hi.mem_part h) (hi.mem_part h'))

/-- The pages that have a role are those of the allocatable range. -/
theorem KInv.isPage_iff (hi : KInv M S g []) : M.IsPage pa ↔ ∃ r, HasRole S pa r := by
  rw [hi.exists_part]
  exact ⟨fun ⟨_, h⟩ => hi.exists_role h, fun ⟨r, h⟩ => ⟨r.part, hi.mem_part h⟩⟩

/-- In every state that can be reached, each page of the allocatable
range has one role and no other page has any, with the free list without
repetition. A run from there in which the processes that are there do
not exit or change their memory or files, and are not reaped, and at
whose end those that came are gone again, leaves the same pages free. -/
theorem pages_partitioned {mem : Nat → Page} {acts : List (KAct np × List Bool)}
    (hboot : kboot M np mem = .ok S) (hrun : run (kStep M) S acts = some S') :
    S'.kmem.free.Nodup
      ∧ (∀ pa, M.IsPage pa → ∃! r, HasRole S' pa r)
      ∧ (∀ pa r, HasRole S' pa r → M.IsPage pa)
      ∧ ∀ (more : List (KAct np × List Bool)) (S'' : KSys np), run (kStep M) S' more = some S'' →
        Along (kStep M) (Leaves M S') S' more →
        (∀ q, (S'.proc q).state = .unused → (S''.proc q).state = .unused) →
        S''.kmem.free.Perm S'.kmem.free := by
  obtain ⟨g, hi, ht⟩ := run_sound hboot hrun
  refine ⟨hi.part_nodup (.inl 0), fun pa hpa => ?_, fun pa r h => hi.isPage_iff.mpr ⟨r, h⟩,
    fun more S'' hmore hquiet hgone => run_free_same hi ht hquiet hmore hgone⟩
  obtain ⟨r, hr⟩ := hi.isPage_iff.mp hpa
  exact ⟨r, hr, fun r' hr' => hi.role_unique hr' hr⟩

/-- With two processes, each page of thirty has one role. -/
theorem pages_partitioned_fork : ∃ S' : KSys 2, (S'.proc 0).state = .runnable
    ∧ (S'.proc 1).state = .runnable ∧ S'.kmem.free.length = 16
    ∧ ∀ pa, smallMachine.IsPage pa → ∃! r, HasRole S' pa r := by
  obtain ⟨S, S', hboot, hrun, hP⟩ := bootRun_spec
    [(.userinit [19, 5, 0, 0], []), (.fork 0, [])]
    (fun S' => decide ((S'.proc 0).state = .runnable ∧ (S'.proc 1).state = .runnable
      ∧ S'.kmem.free.length = 16)) (by decide +kernel)
  obtain ⟨h0, h1, hlen⟩ := of_decide_eq_true hP
  exact ⟨S', h0, h1, hlen, (pages_partitioned hboot hrun).2.1⟩

end Roles

end Xv6.Vm
