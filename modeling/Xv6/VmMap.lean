import Xv6.VmTree

/-!
# Mapping and unmapping ranges

`mappages`, `uvmunmap` and `freewalk` on tables. A range is given by its
first page number and its length. `mappages` either maps the whole range
or stops at the page whose path it cannot complete; `uvmunmap` clears a
range and gives back the pages mapped there; `freewalk` gives back an
empty table.
-/

namespace Xv6.Vm

open Transfer Radix List Option Ends Nat

/-- A table changed, with the pages it is made of. -/
structure Becomes (k : Kmem) (t : Table) (k' : Kmem) (t' : Table) : Prop where
  rep : Rep k'.cell t'
  name : t'.name = t.name
  moves : Moves k.toStore t.nodes k'.toStore t'.nodes
  sub : t.nodes ≤ t'.nodes
  len : k'.free.length ≤ k.free.length

variable {n : Nat} {doFree : Bool}

section Map

variable {M : Machine} {k k' : Kmem} {t t' : Table} {pt va : Nat}

theorem Grows.becomes (h : Grows k t k' t') : Becomes k t k' t' := 
  ⟨h.rep, h.name, h.moves, h.sub, h.len⟩

theorem Becomes.trans {k'' : Kmem} {t'' : Table} (h₁ : Becomes k t k' t')
    (h₂ : Becomes k' t' k'' t'') : Becomes k t k'' t'' :=
  ⟨h₂.rep, h₂.name.trans h₁.name, h₁.moves.trans h₂.moves, h₁.sub.trans h₂.sub,
    h₂.len.trans h₁.len⟩

theorem lt_of_walk {alloc : Bool} {r : Option PtePtr × Kmem} (h : walk k pt va alloc = .ok r) :
    va < MAXVA := by
  by_contra hc
  rw [walk, if_pos (Nat.le_of_not_lt hc)] at h
  cases h

theorem walk_false (hrep : Rep k.cell t) (hok : ∀ x ∈ t.nodes, M.IsPage x)
    (hname : t.name = some pt) (hva : va < MAXVA) :
    walk k pt va false = .ok ((t.bottom (vpn va)).map (⟨·, PX 0 va⟩), k) := by
  rw [walk, if_neg (not_le.mpr hva), walkLoop_false hrep hok hname]

/-- `walk` finds the entry of a mapped address. -/
theorem walk_mapped (va : Nat) (hrep : Rep k.cell t) (hok : ∀ x ∈ t.nodes, M.IsPage x)
    (hname : t.name = some pt) (hva : va < MAXVA) (hmapped : t.get (vpn va) ≠ 0) :
    ∃ p, walk k pt va false = .ok (some p, k) ∧ At t va p := by
  obtain ⟨b, hb⟩ := Trie.hasPath_iff.mp (Trie.hasPath_of_get_ne hmapped)
  refine ⟨⟨b, PX 0 va⟩, ?_, b, hb, rfl⟩
  rw [walk_false hrep hok hname hva, hb]
  rfl

theorem walk_true (hrep : Rep k.cell t) (hown : Custody M.IsPage k.toStore t.nodes)
    (hname : t.name = some pt) (hva : va < MAXVA) :
    ∃ r k' t', walk k pt va true = .ok (r, k') ∧ Grows k t k' t' ∧ ∀ p, r = some p → At t' va p := by
  obtain ⟨t', hgrow, hat⟩ := walkLoop_true hrep hown hname va
  exact ⟨_, _, t', if_neg (not_le.mpr hva), hgrow, hat⟩

/-- The entry of an address is overwritten. -/
theorem Becomes.setPte (hrep : Rep k.cell t) (hown : Custody M.IsPage k.toStore t.nodes) {p : PtePtr}
    (hat : At t va p) {w : Nat} (hw : w < 2 ^ 64) :
    Becomes k t (k.setPte p w) (t.set (vpn va) w) := by
  refine ⟨hrep.setPte hown.nodup_owned hat hw, Trie.name_set .., ?_, ?_, le_refl _⟩
  · rw [Trie.nodes_set]
    exact Kmem.moves_setPte hat.mem w
  · rw [Trie.nodes_set]

/-! ## `mappages` -/

/-- The entries of `m` pages from `v` on are those of consecutive
physical pages from `pa` on. -/
def MapsRange (t t' : Table) (v m pa perm : Nat) : Prop :=
  ∀ key < NPTE ^ 3, t'.get key = if v ≤ key ∧ key < v + m
    then mapEntry ((pa + (key - v) * PGSIZE) % 2 ^ 64) perm else t.get key

theorem mappagesLoop_ends {E : KPanic → Prop} {perm : Nat} (hperm : perm < 2 ^ 64) :
    ∀ {k : Kmem} {t : Table} {a pa : Nat}, Rep k.cell t → Custody M.IsPage k.toStore t.nodes →
    t.name = some pt → a % 4096 = 0 → pa < 2 ^ 64 →
    ((∀ j < n, a + j * 4096 < MAXVA ∧ t.get (vpn a + j) % 2 = 0) ∨ E .walk ∧ E .mappagesRemap) →
    Ends (fun r => ∃ t' m, Becomes k t r.2 t' ∧ m ≤ n ∧ (r.1 = true ↔ m = n)
      ∧ MapsRange t t' (vpn a) m pa perm) E (mappagesLoop pt perm n k a pa) := by
  induction n with
  | zero =>
    intro k t a pa hrep hown _ _ _ _
    refine .ok ⟨t, 0, ⟨hrep, rfl, .refl .., le_rfl, le_refl _⟩, le_refl 0, iff_of_true rfl rfl, fun key _ => ?_⟩
    rw [if_neg (by omega)]
  | succ n ih =>
    intro k t a pa hrep hown hname ha hpa hE
    unfold mappagesLoop
    by_cases hva : a < MAXVA
    · obtain ⟨r, k₁, t₁, hwalk, hgrow, hat⟩ := walk_true hrep hown hname hva
      rw [hwalk]
      cases r with
      | none =>
        refine .ok ⟨t₁, 0, hgrow.becomes, zero_le _, iff_of_false nofun nofun, fun key _ => ?_⟩
        rw [if_neg (by omega), hgrow.get]
      | some p =>
        have hat := hat p rfl
        have hown₁ := hown.moves hgrow.moves
        have hpte : k₁.pte p = t.get (vpn a) := (hat.pte hgrow.rep).trans (hgrow.get _)
        show Ends _ E (if pteHas (k₁.pte p) PTE_V = true then _ else _)
        rw [hpte, pteHas_v]
        split
        · rename_i hv
          have hv := of_decide_eq_true hv
          rcases hE with hE | hE
          · have := (hE 0 (succ_pos n)).2
            rw [add_zero] at this
            omega
          · exact hE.2
        · -- the entry is written, and the loop goes on behind it
          have hset := Becomes.setPte hgrow.rep hown₁ hat (mapEntry_lt hpa hperm)
          have hbec := hgrow.becomes.trans hset
          have hmax : a < 2 ^ 38 := hva
          have hnext : (a + PGSIZE) % 2 ^ 64 = a + 4096 := mod_eq_of_lt (by
            show a + 4096 < 2 ^ 64
            omega)
          have hvpn : vpn (a + 4096) = vpn a + 1 := by
            show (a + 4096) / 4096 = a / 4096 + 1
            omega
          have hkey : ∀ key < NPTE ^ 3, (t₁.set (vpn a) (mapEntry pa perm)).get key
              = if key = vpn a then mapEntry pa perm else t.get key := fun key hkey => by
            rw [get_set_key hat hva hkey, hgrow.get]
          rw [hnext]
          refine (ih hbec.rep (hown.moves hbec.moves) (hbec.name.trans hname) (by omega)
            (mod_lt _ (by decide)) (hE.imp_left fun hE j hj => ?_)).mono ?_
          · have h1 := (hE (j + 1) (by omega)).1
            have hlt : vpn a + 1 + j < NPTE ^ 3 := by
              have h1' : a + (j + 1) * 4096 < 2 ^ 38 := h1
              show a / 4096 + 1 + j < 512 ^ 3
              omega
            grind
          · rintro ⟨done, k'⟩ ⟨t', m, hbec', hm, hdone, hmaps⟩
            refine ⟨t', m + 1, hbec.trans hbec', succ_le_succ hm,
              hdone.trans (by omega), fun key hlt => ?_⟩
            rw [hmaps key hlt, hvpn, hkey key hlt]
            grind
    · rcases hE with hE | hE
      · exact absurd (by simpa using (hE 0 (succ_pos n)).1) hva
      · rw [walk, if_pos (Nat.le_of_not_lt hva)]
        exact hE.1

/-- One page is one round of the loop. -/
theorem mappages_one (k : Kmem) (pt : Nat) {va : Nat} (pa perm : Nat) (hmod : va % 4096 = 0)
    (hva : va < MAXVA) : mappages k pt va PGSIZE pa perm = mappagesLoop pt perm 1 k va pa := by
  have hmax : va < 2 ^ 38 := hva
  unfold mappages
  rw [if_neg (by decide)]
  have h1 : PGROUNDDOWN va = va := by
    show va / 4096 * 4096 = va
    omega
  have h2 : PGROUNDDOWN ((va + PGSIZE - 1) % 2 ^ 64) = va := by
    show (va + 4095) % 2 ^ 64 / 4096 * 4096 = va
    omega
  have h3 : (va + 2 ^ 64 - va) % 2 ^ 64 / PGSIZE + 1 = 1 := by simp
  simp only [h1, h2, h3]

/-- `mappages` of one page that is not mapped. -/
theorem mappages_page (va perm : Nat) (hrep : Rep k.cell t) (hown : Custody M.IsPage k.toStore t.nodes)
    (hname : t.name = some pt) (hmod : va % 4096 = 0) (hva : va < MAXVA)
    (hfree : t.get (vpn va) % 2 = 0) {pa : Nat} (hpa : pa < 2 ^ 64) (hperm : perm < 1024) :
    ∃ done k' t', mappages k pt va PGSIZE pa perm = .ok (done, k') ∧ Becomes k t k' t'
      ∧ ∀ key < NPTE ^ 3, t'.get key
        = if done = true ∧ key = vpn va then mapEntry pa perm else t.get key := by
  have hends := mappagesLoop_ends (E := fun _ => False) (lt_trans hperm (by decide)) (n := 1) hrep hown hname hmod hpa
    (.inl fun j hj => by
      obtain rfl : j = 0 := by omega
      exact ⟨by simpa using hva, by simpa using hfree⟩)
  rw [mappages_one k pt pa perm hmod hva]
  cases hr : mappagesLoop pt perm 1 k va pa with
  | error e => exact (hends.of_error hr).elim
  | ok r =>
    obtain ⟨t', m, hbec, hm, hdone, hmaps⟩ := hends.of_ok hr
    -- failing means that nothing was mapped
    cases hr1 : r.1 with
    | true =>
      refine ⟨true, r.2, t', by rw [← hr1], hbec, fun key hkey => ?_⟩
      rw [hmaps key hkey]
      grind
    | false =>
      have hne : m ≠ 1 := fun hc => by
        rw [hdone.mpr hc] at hr1
        cases hr1
      refine ⟨false, r.2, t', by rw [← hr1], hbec, fun key hkey => ?_⟩
      rw [hmaps key hkey, if_neg (by omega), if_neg (by simp)]

end Map

/-! ## `uvmunmap` -/

/-- The physical pages mapped at `n` page numbers from `v` on. -/
def leafPages (t : Table) : Nat → Nat → Multiset Nat
  | _, 0 => 0
  | v, n + 1 => {PTE2PA (t.get v)} + leafPages t (v + 1) n

section Unmap

variable {M : Machine} {k k' : Kmem} {t t' : Table} {pt va : Nat}

theorem leafPages_congr_pa : ∀ {v : Nat}, (∀ key, v ≤ key → key < v + n →
    PTE2PA (t'.get key) = PTE2PA (t.get key)) → leafPages t' v n = leafPages t v n := by
  induction n with
  | zero => intro v _; rfl
  | succ n ih =>
    intro v h
    grind [leafPages, h v (le_refl v) (by omega)]

theorem leafPages_congr {v : Nat} (h : ∀ key, v ≤ key → key < v + n → t'.get key = t.get key) :
    leafPages t' v n = leafPages t v n :=
  leafPages_congr_pa fun key h1 h2 => by rw [h key h1 h2]

theorem leafPages_add (m n : Nat) : ∀ {v : Nat},
    leafPages t v (m + n) = leafPages t v m + leafPages t (v + m) n := by
  induction m with
  | zero =>
    intro v
    rw [zero_add, add_zero, leafPages, zero_add]
  | succ m ih =>
    intro v
    rw [succ_add, leafPages, leafPages, ih, add_assoc v 1 m, add_comm 1 m, add_assoc]

theorem mem_leafPages {x : Nat} : ∀ {v : Nat},
    x ∈ leafPages t v n ↔ ∃ key, v ≤ key ∧ key < v + n ∧ PTE2PA (t.get key) = x := by
  induction n with
  | zero =>
    intro v
    refine iff_of_false (Multiset.notMem_zero x) ?_
    rintro ⟨key, h1, h2, -⟩
    omega
  | succ n ih =>
    intro v
    rw [leafPages, Multiset.mem_add, Multiset.mem_singleton, ih]
    grind

/-- Entries of a range whose pages are all different. -/
theorem leafPages_inj : ∀ {v a b : Nat}, (leafPages t v n).Nodup → v ≤ a → a < v + n →
    v ≤ b → b < v + n → PTE2PA (t.get a) = PTE2PA (t.get b) → a = b := by
  induction n with
  | zero =>
    intro v a b _ h1 h2
    omega
  | succ n ih =>
    intro v a b hnd h1 h2 h3 h4 heq
    rw [leafPages, Multiset.singleton_add, Multiset.nodup_cons] at hnd
    have hfirst : ∀ {c}, v < c → c < v + (n + 1) → PTE2PA (t.get v) ≠ PTE2PA (t.get c) :=
      fun {c} hc hlt h => hnd.1 (mem_leafPages.mpr ⟨c, hc, by omega, h.symm⟩)
    grind

theorem card_leafPages (n : Nat) : ∀ {v : Nat}, Multiset.card (leafPages t v n) = n := by
  induction n with
  | zero => intro v; rfl
  | succ n ih =>
    intro v
    rw [leafPages, Multiset.card_add, ih, Multiset.card_singleton, add_comm]

/-- The pages `uvmunmap` gives back. -/
def given (doFree : Bool) (t : Table) (v n : Nat) : Multiset Nat :=
  if doFree then leafPages t v n else 0

theorem given_succ (doFree : Bool) (t : Table) (v n : Nat) :
    given doFree t v (n + 1)
      = (if doFree then {PTE2PA (t.get v)} else 0) + given doFree t (v + 1) n := by
  cases doFree
  · rfl
  · rfl

/-- What `uvmunmap` takes for the entry of a page. -/
def Removable (pte : Nat) : Prop := pte % 2 = 1 ∧ PTE_FLAGS pte ≠ PTE_V

theorem Removable.ne_zero {pte : Nat} (h : Removable pte) : pte ≠ 0 := fun hc => by
  have := h.1
  omega

theorem IsLeaf.removable {pte : Nat} (h : IsLeaf pte) : Removable pte := ⟨h.1, h.flags⟩

/-- The table with a range cleared. -/
structure Cleared (k : Kmem) (t : Table) (k' : Kmem) (t' : Table) (v n : Nat) : Prop where
  rep : Rep k'.cell t'
  name : t'.name = t.name
  nodes : t'.nodes = t.nodes
  get : ∀ key < NPTE ^ 3, t'.get key = if v ≤ key ∧ key < v + n then 0 else t.get key

theorem uvmunmapLoop_ok : ∀ {k : Kmem} {t : Table} {a : Nat},
    Rep k.cell t → Custody M.IsPage k.toStore (t.nodes + given doFree t (vpn a) n) →
    t.name = some pt → a % 4096 = 0 →
    (∀ j < n, a + j * 4096 < MAXVA ∧ Removable (t.get (vpn a + j))) →
    ∃ k' t', uvmunmapLoop M pt doFree n k a = .ok k' ∧ Cleared k t k' t' (vpn a) n
      ∧ Moves k.toStore (t.nodes + given doFree t (vpn a) n) k'.toStore t.nodes := by
  induction n with
  | zero =>
    intro k t a hrep _ _ _ _
    refine ⟨k, t, rfl, ⟨hrep, rfl, rfl, fun key _ => ?_⟩, ?_⟩
    · rw [if_neg (by omega)]
    · have h0 : given doFree t (vpn a) 0 = 0 := by cases doFree <;> rfl
      rw [h0, add_zero]
      exact Moves.refl ..
  | succ n ih =>
    intro k t a hrep hown hname ha hmap
    obtain ⟨hva, hleaf⟩ := hmap 0 (succ_pos n)
    rw [add_zero] at hleaf
    have hvpn : vpn (a + PGSIZE) = vpn a + 1 := by
      show (a + 4096) / 4096 = a / 4096 + 1
      omega
    have hok : ∀ x ∈ t.nodes, M.IsPage x := fun x hx => hown.left.ok_owned hx
    obtain ⟨p, hwalk, hat⟩ := walk_mapped a hrep hok hname hva hleaf.ne_zero
    have hpte : k.pte p = t.get (vpn a) := hat.pte hrep
    -- the page of this round goes back first
    obtain ⟨k₁, hfree, hrep₁, hm₁⟩ : ∃ k₁, (if doFree then kfree M k (PTE2PA (k.pte p)) else .ok k)
        = .ok k₁ ∧ Rep k₁.cell t ∧ Moves k.toStore (t.nodes + given doFree t (vpn a) (n + 1))
          k₁.toStore (t.nodes + given doFree t (vpn a + 1) n) := by
      rw [given_succ] at hown ⊢
      cases doFree with
      | false => exact ⟨k, rfl, hrep, .of_eq (.refl _ _) rfl (by simp)⟩
      | true =>
        rw [hpte]
        have hq : PTE2PA (t.get (vpn a)) ∈ t.nodes
            + ({PTE2PA (t.get (vpn a))} + given true t (vpn a + 1) n) := by simp
        obtain ⟨k₁, hk₁, hm, -⟩ := kfree_ok (k := k) (hown.ok_owned hq)
        refine ⟨k₁, hk₁, hrep.frame fun x hx => ?_, ?_⟩
        · refine hm.frame x (fun hc => ?_) (hown.left.notMem_free hx)
          refine hown.notMem_left (Multiset.mem_add.mpr (.inl hc)) hx
        · exact ((hm.add (t.nodes + given true t (vpn a + 1) n)).of_eq
            (add_left_comm _ _ _) (zero_add _))
    have hown₁ := hown.moves hm₁
    have hset := Becomes.setPte hrep₁ hown₁.left hat (w := 0) (by decide)
    have hnodes : (t.set (vpn a) 0).nodes = t.nodes := Trie.nodes_set ..
    have hget : ∀ key < NPTE ^ 3, (t.set (vpn a) 0).get key
        = if key = vpn a then 0 else t.get key := fun key hkey => get_set_key hat hva hkey
    have hkeys : ∀ key, vpn a + 1 ≤ key → key < vpn a + 1 + n → key < NPTE ^ 3 := fun key h1 h2 => by
      have h3 := (hmap (key - vpn a) (by omega)).1
      have h3' : a + (key - a / 4096) * 4096 < 2 ^ 38 := h3
      grind
    have hpages : leafPages (t.set (vpn a) 0) (vpn a + 1) n = leafPages t (vpn a + 1) n :=
      leafPages_congr fun key h1 h2 => by rw [hget key (hkeys key h1 h2), if_neg (by omega)]
    have hgiven : given doFree (t.set (vpn a) 0) (vpn a + 1) n = given doFree t (vpn a + 1) n := by
      rw [given, given, hpages]
    have hm₂ : Moves k.toStore (t.nodes + given doFree t (vpn a) (n + 1))
        (k₁.setPte p 0).toStore ((t.set (vpn a) 0).nodes
          + given doFree (t.set (vpn a) 0) (vpn (a + PGSIZE)) n) := by
      rw [hvpn, hgiven, hnodes]
      exact hm₁.trans (Kmem.moves_setPte (Multiset.mem_add.mpr (.inl hat.mem)) 0)
    obtain ⟨k', t', hrun, hcl, hm'⟩ := ih hset.rep (hown.moves hm₂) (hset.name.trans hname)
      (show (a + 4096) % 4096 = 0 by omega) fun j hj => by grind
    refine ⟨k', t', ?_, ⟨hcl.rep, hcl.name.trans hset.name, hcl.nodes.trans hnodes,
      fun key hkey => ?_⟩, (hm₂.trans hm').of_eq rfl hnodes⟩
    · unfold uvmunmapLoop
      rw [hwalk]
      show (if pteHas (k.pte p) PTE_V = false then _ else if PTE_FLAGS (k.pte p) = PTE_V then _
        else _) = _
      rw [hpte, pteHas_v, if_neg (by simp [hleaf.1]), if_neg hleaf.2, ← hpte, hfree]
      exact hrun
    · rw [hcl.get key hkey, hvpn, hget key hkey]
      grind

theorem uvmunmap_ok (doFree : Bool) (va : Nat) (hrep : Rep k.cell t)
    (hown : Custody M.IsPage k.toStore (t.nodes + given doFree t (vpn va) n))
    (hname : t.name = some pt) (hmod : va % 4096 = 0) (hmax : va + n * 4096 ≤ MAXVA)
    (hmap : ∀ j < n, IsLeaf (t.get (vpn va + j))) :
    ∃ k' t', uvmunmap M k pt va n doFree = .ok k' ∧ Cleared k t k' t' (vpn va) n
      ∧ Moves k.toStore (t.nodes + given doFree t (vpn va) n) k'.toStore t.nodes := by
  have hcount : ((va + n * PGSIZE) % 2 ^ 64 - va) / PGSIZE = n := by grind
  rw [uvmunmap, if_neg (not_not.mpr hmod), hcount]
  refine uvmunmapLoop_ok hrep hown hname hmod fun j hj => ⟨?_, IsLeaf.removable (hmap j hj)⟩
  omega

/-- The loop of `uvmunmap` is its first round and the rest. -/
theorem uvmunmapLoop_succ (M : Machine) (pt : Nat) (doFree : Bool) (n : Nat) (k : Kmem) (a : Nat) :
    uvmunmapLoop M pt doFree (n + 1) k a
      = (uvmunmapLoop M pt doFree 1 k a >>= fun k' => uvmunmapLoop M pt doFree n k' (a + PGSIZE)) := by
  simp only [uvmunmapLoop]
  cases walk k pt a false with
  | error e => rfl
  | ok r =>
    rcases r with ⟨_ | p, k₁⟩
    · rfl
    · simp only [ok_bind]
      split
      · rfl
      · split
        · rfl
        · cases (if doFree = true then kfree M k₁ (PTE2PA (k₁.pte p)) else .ok k₁) with
          | error e => rfl
          | ok k₂ => rfl

/-- The loop panics in `walk` above `MAXVA`. -/
theorem uvmunmapLoop_below : ∀ {k : Kmem} {a : Nat},
    uvmunmapLoop M pt doFree n k a = .ok k' → ∀ j < n, a + j * 4096 < MAXVA := by
  induction n with
  | zero =>
    intro k a _ j hj
    omega
  | succ n ih =>
    intro k a hrun j hj
    rw [uvmunmapLoop_succ] at hrun
    obtain ⟨k₁, hone, hrest⟩ := bind_ok hrun
    cases j with
    | zero =>
      obtain ⟨r, hwalk, -⟩ := bind_ok hone
      simpa using lt_of_walk hwalk
    | succ j =>
      have h : a + PGSIZE + j * 4096 < MAXVA := ih hrest j (lt_of_succ_lt_succ hj)
      show a + (j + 1) * 4096 < 2 ^ 38
      have h' : a + 4096 + j * 4096 < 2 ^ 38 := h
      omega

/-- A round that goes through met the entry of a page. -/
theorem uvmunmapLoop_one {a : Nat} (hrep : Rep k.cell t) (hok : ∀ x ∈ t.nodes, M.IsPage x)
    (hname : t.name = some pt) (hrun : uvmunmapLoop M pt doFree 1 k a = .ok k') :
    Removable (t.get (vpn a)) := by
  have hva : a < MAXVA := by simpa using uvmunmapLoop_below hrun 0 one_pos
  obtain ⟨⟨r, k₁⟩, hwalk, hrun⟩ := bind_ok hrun
  rw [walk_false hrep hok hname hva] at hwalk
  cases hwalk
  cases hb : t.bottom (vpn a) with
  | none =>
    grind
  | some b =>
    have hpte : k.pte ⟨b, PX 0 a⟩ = t.get (vpn a) := At.pte ⟨b, hb, rfl⟩ hrep
    simp only [hb, map_some, hpte, pteHas_v, decide_eq_false_iff_not] at hrun
    split at hrun
    · cases hrun
    · constructor <;> grind

/-- The loop goes through only where every address is mapped. -/
theorem uvmunmapLoop_mapped : ∀ {k : Kmem} {t : Table} {a : Nat},
    Rep k.cell t → Custody M.IsPage k.toStore (t.nodes + given doFree t (vpn a) n) →
    t.name = some pt → a % 4096 = 0 → uvmunmapLoop M pt doFree n k a = .ok k' →
    ∀ j < n, Removable (t.get (vpn a + j)) := by
  induction n with
  | zero =>
    intro k t a _ _ _ _ _ j hj
    omega
  | succ n ih =>
    intro k t a hrep hown hname ha hrun
    have hbelow := uvmunmapLoop_below hrun
    rw [uvmunmapLoop_succ] at hrun
    obtain ⟨k₁, hone, hrest⟩ := bind_ok hrun
    have hrem := uvmunmapLoop_one hrep (fun x hx => hown.left.ok_owned hx) hname hone
    have hvpn : vpn (a + PGSIZE) = vpn a + 1 := by
      show (a + 4096) / 4096 = a / 4096 + 1
      omega
    have hgiven : given doFree t (vpn a) (n + 1)
        = given doFree t (vpn a) 1 + given doFree t (vpn a + 1) n := by
      cases doFree
      · rfl
      · simp [given, leafPages]
    rw [hgiven, ← add_assoc] at hown
    obtain ⟨k₂, t₂, hrun₂, hcl, hm⟩ := uvmunmapLoop_ok (n := 1) hrep hown.left hname ha
      fun j hj => by
        obtain rfl : j = 0 := by omega
        exact ⟨hbelow 0 (succ_pos n), by rwa [add_zero]⟩
    obtain rfl := Except.ok.inj (hone.symm.trans hrun₂)
    -- behind the first page the table is as before
    have hkeep : ∀ j < n, t₂.get (vpn a + 1 + j) = t.get (vpn a + 1 + j) := fun j hj => by
      have h : a + (j + 1) * 4096 < 2 ^ 38 := hbelow (j + 1) (succ_lt_succ hj)
      have hkey : vpn a + 1 + j < NPTE ^ 3 := by
        show a / 4096 + 1 + j < 512 ^ 3
        omega
      rw [hcl.get _ hkey, if_neg (by omega)]
    have hgiven₂ : given doFree t₂ (vpn a + 1) n = given doFree t (vpn a + 1) n := by
      rw [given, given, leafPages_congr fun key h1 h2 => ?_]
      have h := hkeep (key - (vpn a + 1)) (by omega)
      rwa [Nat.add_sub_cancel' h1] at h
    have hmoves : Moves k.toStore (t.nodes + given doFree t (vpn a) 1
        + given doFree t (vpn a + 1) n) k₁.toStore (t₂.nodes + given doFree t₂ (vpn (a + PGSIZE)) n) := by
      rw [hvpn, hgiven₂, hcl.nodes]
      exact hm.add _
    have hnext := ih hcl.rep (hown.moves hmoves) (hcl.name.trans hname)
      (show (a + 4096) % 4096 = 0 by omega) hrest
    intro j hj
    cases j with
    | zero => rwa [add_zero]
    | succ j =>
      have h := hnext j (lt_of_succ_lt_succ hj)
      rw [hvpn, hkeep j (lt_of_succ_lt_succ hj)] at h
      rwa [add_comm j 1, ← add_assoc]

/-! ## `freewalk` -/

section Entry

variable {free : Kmem → Nat → Except KPanic Kmem} {a i : Nat}

theorem freewalkEntry_zero (h : k.pte ⟨a, i⟩ = 0) : freewalkEntry free a k i = .ok k := by
  unfold freewalkEntry
  simp only [h, pteHas_zero, Bool.false_and, Bool.false_eq_true, if_false]

theorem freewalkEntry_link {pg : Nat} (hpg : M.IsPage pg) (h : k.pte ⟨a, i⟩ = link (some pg)) :
    freewalkEntry free a k i = (free k pg >>= fun k => .ok (k.setPte ⟨a, i⟩ 0)) := by
  obtain ⟨hv, hpa, hrwx, -⟩ := link_some hpg
  unfold freewalkEntry
  simp only [h, hv, hpa, hrwx, Bool.not_false, Bool.and_self, if_true]

end Entry

/-- The loop of `freewalk` over the entries of `l`, each of which links a
subtable that the recursive call gives back. -/
theorem freewalkEntries_ok {free : Kmem → Nat → Except KPanic Kmem} {a : Nat}
    {kid : Fin NPTE → PTree n}
    (hfree : ∀ {k : Kmem} {c : PTree n} {pg : Nat}, Rep k.cell c → Custody M.IsPage k.toStore c.nodes → c.name = some pg → (∀ key, c.get key = 0) → ∃ k', free k pg = .ok k' ∧ Moves k.toStore c.nodes k'.toStore 0)
    (hzero : ∀ i key, (kid i).get key = 0) {l : List (Fin NPTE)} (hl : l.Nodup) :
    ∀ {k : Kmem}, (∀ i ∈ l, k.pte ⟨a, i.val⟩ = link (kid i).name ∧ Rep k.cell (kid i)) →
    Custody M.IsPage k.toStore ({a} + (l.map fun i => (kid i).nodes).sum) →
    ∃ k', l.foldlM (fun k i => freewalkEntry free a k i.val) k = .ok k'
      ∧ Moves k.toStore ({a} + (l.map fun i => (kid i).nodes).sum) k'.toStore {a} := by
  induction l with
  | nil =>
    intro k _ _
    exact ⟨k, rfl, .of_eq (.refl _ _) rfl (add_zero _)⟩
  | cons i l ih =>
    intro k hent hown
    obtain ⟨hpte, hrep⟩ := hent i (mem_cons_self ..)
    obtain ⟨hi, hl⟩ := nodup_cons.mp hl
    have hnodes : ({a} + ((i :: l).map fun i => (kid i).nodes).sum : Multiset Nat)
        = (kid i).nodes + ({a} + (l.map fun i => (kid i).nodes).sum) := by
      rw [map_cons, sum_cons, add_left_comm]
    rw [hnodes] at hown ⊢
    have hmem : ∀ j ∈ l, ∀ x ∈ (kid j).nodes, x ∈ (l.map fun i => (kid i).nodes).sum := by
      intro j hj x hx
      exact Multiset.mem_of_le (single_le_sum (fun _ _ => zero_le) _
        (mem_map.mpr ⟨j, hj, rfl⟩)) hx
    -- one round
    obtain ⟨k₁, hk₁, hm₁, hcell₁⟩ : ∃ k₁, freewalkEntry free a k i.val = .ok k₁
        ∧ Moves k.toStore ((kid i).nodes + ({a} + (l.map fun i => (kid i).nodes).sum)) k₁.toStore
          ({a} + (l.map fun i => (kid i).nodes).sum)
        ∧ ∀ j ∈ l, k₁.pte ⟨a, j.val⟩ = k.pte ⟨a, j.val⟩ ∧ ∀ x ∈ (kid j).nodes,
          k₁.cell x = k.cell x := by
      cases hc : (kid i).name with
      | none =>
        rw [hc] at hpte
        rw [Trie.eq_nil_of_name hc, Trie.nodes_nil, zero_add]
        exact ⟨k, freewalkEntry_zero hpte, .refl _ _, fun j _ => ⟨rfl, fun x _ => rfl⟩⟩
      | some pg =>
        rw [hc] at hpte
        obtain ⟨k₁, hk₁, hm⟩ := hfree hrep hown.left hc (hzero i)
        have hkeep : ∀ x ∈ ({a} + (l.map fun i => (kid i).nodes).sum : Multiset Nat),
            k₁.cell x = k.cell x := fun x hx => hown.keeps hm hx
        have ha : a ∈ ({a} + (l.map fun i => (kid i).nodes).sum : Multiset Nat) := by simp
        refine ⟨k₁.setPte ⟨a, i.val⟩ 0, ?_, ((hm.add _).of_eq rfl (zero_add _)).trans
          (Kmem.moves_setPte ha 0), fun j hj => ⟨?_, fun x hx => ?_⟩⟩
        · rw [freewalkEntry_link (hown.left.ok_owned (Trie.mem_nodes_of_name hc)) hpte, hk₁]
          rfl
        · have hne : j.val ≠ i.val := fun hc => hi (Fin.ext hc ▸ hj)
          rw [pte_setPte_ne (p := ⟨a, i.val⟩) hne]
          show (k₁.cell a).word 8 _ = (k.cell a).word 8 _
          rw [hkeep a ha]
        · have hx' := hmem j hj x hx
          have hxa : x ≠ a := fun hc => by
            have h := hown.right.notMem_left hx'
            exact h (hc ▸ Multiset.mem_singleton_self a)
          have hsame : (k₁.setPte ⟨a, i.val⟩ 0).cell x = k₁.cell x :=
            Function.update_of_ne hxa ..
          grind
    obtain ⟨k', hk', hm'⟩ := ih hl (k := k₁) (fun j hj => by
      obtain ⟨h1, h2⟩ := hent j (mem_cons_of_mem _ hj)
      exact ⟨(hcell₁ j hj).1.trans h1, h2.frame (hcell₁ j hj).2⟩) (hown.moves hm₁)
    refine ⟨k', ?_, hm₁.trans hm'⟩
    rw [foldlM_cons, hk₁]
    exact hk'

theorem freewalk_ok : ∀ {k : Kmem} {t : PTree n} {pt : Nat}, Rep k.cell t →
    Custody M.IsPage k.toStore t.nodes → t.name = some pt → (∀ key, t.get key = 0) →
    ∃ k', freewalk M (n + 1) k pt = .ok k' ∧ Moves k.toStore t.nodes k'.toStore 0 := by
  induction n with
  | zero =>
    intro k t pt hrep hown hname hzero
    cases t with
    | nil => cases hname
    | leaf a val =>
      obtain rfl := some.inj hname
      -- a bottom table without entries
      have hloop : (range NPTE).foldlM (freewalkEntry (freewalk M 0) a) k = .ok k := by
        have hskip : ∀ i ∈ range NPTE, freewalkEntry (freewalk M 0) a k i = .ok k := by
          intro i hi
          refine freewalkEntry_zero ?_
          have h := hrep ⟨i, mem_range.mp hi⟩
          rw [← Trie.get_leaf_compose a val, hzero] at h
          exact h
        generalize range NPTE = l at hskip
        induction l with
        | nil => rfl
        | cons i l ih =>
          rw [foldlM_cons, hskip i (mem_cons_self ..)]
          exact ih fun j hj => hskip j (mem_cons_of_mem _ hj)
      obtain ⟨k', hk', hm, -⟩ := kfree_ok (k := k) (hown.ok_owned (Trie.mem_leaf_self a val))
      refine ⟨k', ?_, by rw [Trie.nodes_leaf]; exact hm⟩
      unfold freewalk
      rw [hloop]
      exact hk'
  | succ n ih =>
    intro k t pt hrep hown hname hzero
    cases t with
    | nil => cases hname
    | node a kid =>
      obtain rfl := some.inj hname
      have hnodes : (Trie.node a kid).nodes
          = {a} + ((finRange NPTE).map fun i => (kid i).nodes).sum := by
        rw [Trie.nodes_node, Fin.sum_univ_def]
      rw [hnodes] at hown ⊢
      obtain ⟨k₁, hk₁, hm₁⟩ := freewalkEntries_ok (a := a) (fun h1 h2 h3 h4 => ih h1 h2 h3 h4)
        (fun i key => by rw [← Trie.get_node_compose a kid, hzero]) (nodup_finRange NPTE)
        (fun i _ => hrep i) hown
      have hown₁ := hown.moves hm₁
      obtain ⟨k', hk', hm, -⟩ := kfree_ok (k := k₁)
        (hown₁.ok_owned (Multiset.mem_singleton_self a))
      refine ⟨k', ?_, hm₁.trans hm⟩
      unfold freewalk
      rw [← map_coe_finRange_eq_range, foldlM_map, hk₁]
      exact hk'

end Unmap

end Xv6.Vm
