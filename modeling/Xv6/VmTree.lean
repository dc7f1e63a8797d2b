import Xv6.Ends
import Xv6.Vm

/-!
# Page tables as trees

`Rep mem t`: memory holds the tree `t`, each node in the page that is
its name. A page table is then a function on page numbers
(`Radix.Trie.get`), and the functions of `vm.c` are described by what
they do to that function and to the pages they own: `walk` completes a
path and changes no translation, `mappages` adds entries, `uvmunmap`
removes them, and `freewalk` gives all nodes of an empty table back.
-/

namespace Xv6.Vm

open Function Transfer Radix Multiset Option Nat

/-- A page table of height `n`; entries are numbers, 0 when there is
none. -/
abbrev PTree (n : Nat) := Trie NPTE Nat Nat n

/-- The entry that links a subtable. -/
def link : Option Nat → Nat
  | none => 0
  | some pg => PA2PTE pg ||| PTE_V

def Rep (mem : Nat → Page) : {n : Nat} → PTree n → Prop
  | _, .nil => True
  | _, .leaf a val => ∀ i, (mem a).word 8 (8 * i.val) = val i
  | _, .node a kid => ∀ i, (mem a).word 8 (8 * i.val) = link (kid i).name ∧ Rep mem (kid i)

variable {pg w a : Nat}

section Rep

variable {n : Nat} {mem mem' : Nat → Page}

theorem rep_nil : Rep mem (.nil : PTree n) := by
  cases n <;> trivial

theorem Rep.frame {t : PTree n} (h : Rep mem t) (hmem : ∀ x ∈ t.nodes, mem' x = mem x) :
    Rep mem' t := by
  induction t with
  | nil => exact rep_nil
  | leaf a val =>
    intro i
    rw [hmem a (Trie.mem_leaf_self a val)]
    exact h i
  | node a kid ih =>
    intro i
    rw [hmem a (Trie.mem_node_self a kid)]
    exact ⟨(h i).1, ih i (h i).2 fun x hx => hmem x (Trie.mem_node_of_kid hx)⟩

theorem rep_fresh (hpg : mem pg = ByteVec.fill PGSIZE 0) : Rep mem (.fresh pg n : PTree n) := by
  cases n with
  | zero =>
    intro i
    rw [hpg]
    exact ByteVec.word_fill_zero ..
  | succ n =>
    intro i
    rw [hpg]
    exact ⟨ByteVec.word_fill_zero .., rep_nil⟩

end Rep

/-! ## Entries in memory -/

section Entries

variable {M : Machine} {k : Kmem} {p : PtePtr}

theorem pte_setPte_self (hp : p.ix < NPTE) (hw : w < 2 ^ 64) : (k.setPte p w).pte p = w := by
  show (update k.cell p.page _ p.page).word 8 (8 * p.ix) = w
  rw [update_self, ByteVec.word_setWord_self (by simp only [PGSIZE, NPTE] at *; omega)]
  exact mod_eq_of_lt (by simpa using hw)

theorem pte_setPte_ne {i : Nat} (hi : i ≠ p.ix) :
    (k.setPte p w).pte ⟨p.page, i⟩ = k.pte ⟨p.page, i⟩ := by
  show (update k.cell p.page _ p.page).word 8 (8 * i) = _
  rw [update_self, ByteVec.word_setWord_disjoint (by omega)]
  rfl

theorem pte_lt (k : Kmem) (p : PtePtr) : k.pte p < 2 ^ 64 :=
  (ByteVec.word_lt (k.cell p.page) 8 (8 * p.ix)).trans_eq rfl

/-- A write to another page does not show. -/
theorem pte_setPage_ne {pa : Nat} {v : Page} (h : p.page ≠ pa) : (k.setPage pa v).pte p = k.pte p := by
  show (update k.cell pa v p.page).word 8 _ = _
  rw [update_of_ne h]
  rfl

theorem link_some (hpg : M.IsPage pg) :
    pteHas (link (some pg)) PTE_V = true ∧ PTE2PA (link (some pg)) = pg
      ∧ pteHas (link (some pg)) (PTE_R ||| PTE_W ||| PTE_X) = false ∧ link (some pg) < 2 ^ 64 := by
  have hval : link (some pg) = pg / 4096 * 1024 + 1 := pte_or (by decide)
  have hmod : pg % 4096 = 0 := hpg.1
  have hlt : pg < 2 ^ 56 := lt_of_lt_of_le hpg.2.2 M.phystop_le
  refine ⟨?_, ?_, ?_, ?_⟩
  · rw [pteHas_v, hval]
    exact decide_eq_true (by omega)
  · rw [hval, PTE2PA]
    omega
  · -- the three flags lie below the address
    have hand : link (some pg) &&& 14 = 0 := by
      rw [hval]
      have h16 : (pg / 4096 * 1024 + 1) % 2 ^ 4 = 1 := by omega
      have : (pg / 4096 * 1024 + 1) &&& 14 = ((pg / 4096 * 1024 + 1) % 2 ^ 4) &&& 14 := by
        rw [← Nat.and_two_pow_sub_one_eq_mod, Nat.and_assoc]
        rfl
      rw [this, h16]
      rfl
    show (link (some pg) &&& 14 != 0) = false
    rw [hand]
    rfl
  · rw [hval]
    omega

theorem pteHas_zero (f : Nat) : pteHas 0 f = false := by
  rw [pteHas, zero_and]
  rfl

end Entries

/-! ## Allocation -/

section Alloc

variable {M : Machine} {k k' : Kmem} {A : Multiset Nat} {pa : Nat}

theorem Kmem.moves_setPage (hpa : pa ∈ A) (v : Page) :
    Moves k.toStore A (k.setPage pa v).toStore A := Moves.write hpa v

theorem Kmem.moves_setPte {p : PtePtr} (hp : p.page ∈ A) (w : Nat) :
    Moves k.toStore A (k.setPte p w).toStore A := Moves.write hp _

/-- `kalloc` fails and changes nothing, or takes the first free page. -/
theorem kalloc_cases (k : Kmem) : (∃ k', kalloc k = (none, k') ∧ k'.toStore = k.toStore)
    ∨ ∃ pg k', kalloc k = (some pg, k') ∧ Moves k.toStore 0 k'.toStore {pg}
      ∧ k.free.length = k'.free.length + 1 := by
  unfold kalloc
  split
  · exact .inl ⟨_, rfl, rfl⟩
  · split
    · exact .inl ⟨_, rfl, rfl⟩
    · rename_i r rest hfree
      refine .inr ⟨r, _, rfl, Moves.alloc hfree _, ?_⟩
      rw [hfree, List.length_cons]

theorem kfree_ok (hpa : M.IsPage pa) : ∃ k', kfree M k pa = .ok k' ∧ Moves k.toStore {pa} k'.toStore 0
    ∧ (∀ x ≠ pa, k'.cell x = k.cell x) := by
  obtain ⟨hmod, hlo, hhi⟩ := hpa
  refine ⟨_, if_neg fun hc => ?_, Moves.release _, fun x hx => update_of_ne hx ..⟩
  rcases hc with hc | hc | hc
  · exact hc hmod
  · omega
  · omega

/-- An allocated page is not one of those owned before. -/
theorem Custody.fresh {pg : Nat} (hown : Custody M.IsPage k.toStore A)
    (hm : Moves k.toStore 0 k'.toStore {pg}) : pg ∉ A ∧ M.IsPage pg := by
  have h := hown.moves ((hm.add A).of_eq (zero_add A) rfl)
  exact ⟨fun hc => h.notMem_left hc (mem_singleton_self pg),
    h.ok_owned (mem_add.mpr (.inl (mem_singleton_self pg)))⟩

end Alloc

/-! ## `walk` -/

/-- A page table grew by nodes, with all translations as before. -/
structure Grows {n : Nat} (k : Kmem) (t : PTree n) (k' : Kmem) (t' : PTree n) : Prop where
  rep : Rep k'.cell t'
  name : t'.name = t.name
  get : ∀ key, t'.get key = t.get key
  moves : Moves k.toStore t.nodes k'.toStore t'.nodes
  sub : t.nodes ≤ t'.nodes
  len : k'.free.length ≤ k.free.length

section Walk

variable {M : Machine} {n : Nat} {k k' k'' : Kmem}

theorem Grows.refl {t : PTree n} (hrep : Rep k.cell t) (hk : k'.toStore = k.toStore) :
    Grows k t k' t := by
  refine ⟨?_, rfl, fun _ => rfl, ?_, le_rfl, ?_⟩
  · rw [hk]
    exact hrep
  · rw [hk]
    exact Moves.refl ..
  · rw [hk]

theorem Grows.trans {t t' t'' : PTree n} (h₁ : Grows k t k' t') (h₂ : Grows k' t' k'' t'') :
    Grows k t k'' t'' :=
  ⟨h₂.rep, h₂.name.trans h₁.name, fun key => (h₂.get key).trans (h₁.get key),
    h₁.moves.trans h₂.moves, h₁.sub.trans h₂.sub, h₂.len.trans h₁.len⟩

/-- What happens to a subtable happens to the table. -/
theorem Grows.descend {kid : Fin NPTE → PTree n} {i : Fin NPTE} {c : PTree n}
    (hrep : Rep k.cell (.node a kid)) (hown : Custody M.IsPage k.toStore (Trie.node a kid).nodes)
    (h : Grows k (kid i) k' c) : Grows k (.node a kid) k' (.node a (update kid i c)) := by
  rw [Trie.nodes_split a kid i] at hown
  have hkeep : ∀ x ∈ Trie.others a kid i, k'.cell x = k.cell x := fun x hx => hown.keeps h.moves hx
  refine ⟨fun j => ?_, rfl, fun key => ?_, ?_, ?_, h.len⟩
  · rw [hkeep a (Trie.mem_others_self a kid i)]
    by_cases hj : j = i
    · rw [hj, update_self, h.name]
      exact ⟨(hrep i).1, h.rep⟩
    · rw [update_of_ne hj]
      exact ⟨(hrep j).1, (hrep j).2.frame fun x hx => hkeep x (Trie.mem_others hj hx)⟩
  · show (update kid i c (digit NPTE (n + 1) key)).get key
      = (kid (digit NPTE (n + 1) key)).get key
    by_cases hj : digit NPTE (n + 1) key = i
    · rw [hj, update_self, h.get]
    · rw [update_of_ne hj]
  · rw [Trie.nodes_split a kid i, Trie.nodes_update]
    exact h.moves.add _
  · rw [Trie.nodes_split a kid i, Trie.nodes_update]
    exact add_le_add_left h.sub _

/-- A fresh page becomes a missing subtable. -/
theorem Grows.sprout {kid : Fin NPTE → PTree n} {i : Fin NPTE} (hrep : Rep k.cell (.node a kid))
    (hown : Custody M.IsPage k.toStore (Trie.node a kid).nodes) (hnil : kid i = .nil)
    (hm : Moves k.toStore 0 k'.toStore {pg}) (hlen : k.free.length = k'.free.length + 1) :
    Grows k (.node a kid)
      ((k'.setPage pg (ByteVec.fill PGSIZE 0)).setPte ⟨a, i.val⟩ (PA2PTE pg ||| PTE_V))
      (.node a (update kid i (.fresh pg n))) := by
  obtain ⟨hpg, hpage⟩ := Custody.fresh hown hm
  have ha : a ≠ pg := fun hc => hpg (hc ▸ Trie.mem_node_self a kid)
  have hkeep : ∀ x ∈ (Trie.node a kid).nodes, k'.cell x = k.cell x := fun x hx =>
    hm.frame x (notMem_zero x) (hown.notMem_free hx)
  have hlt := (link_some hpage).2.2.2
  -- the page `pg` and the entry `i` of the page `a` are all that changes
  have hcell : ∀ x, x ≠ a → x ≠ pg →
      ((k'.setPage pg (ByteVec.fill PGSIZE 0)).setPte ⟨a, i.val⟩ (PA2PTE pg ||| PTE_V)).cell x
        = k'.cell x := fun x hxa hxp => by
    show update (update k'.cell pg _) a _ x = _
    rw [update_of_ne hxa, update_of_ne hxp]
  have hpgcell : ((k'.setPage pg (ByteVec.fill PGSIZE 0)).setPte ⟨a, i.val⟩
      (PA2PTE pg ||| PTE_V)).cell pg = ByteVec.fill PGSIZE 0 := by
    show update (update k'.cell pg _) a _ pg = _
    rw [update_of_ne (Ne.symm ha), update_self]
  have hnodes : (Trie.node a (update kid i (.fresh pg n : PTree n))).nodes
      = {pg} + (Trie.node a kid).nodes := by
    rw [Trie.nodes_update, Trie.nodes_fresh, Trie.nodes_split a kid i, hnil, Trie.nodes_nil,
      zero_add]
  refine ⟨fun j => ?_, rfl, fun key => ?_, ?_, ?_, le_of_succ_le hlen.ge⟩
  · by_cases hj : j = i
    · rw [hj, update_self, Trie.name_fresh]
      exact ⟨pte_setPte_self (p := ⟨a, i.val⟩) i.isLt hlt, rep_fresh hpgcell⟩
    · rw [update_of_ne hj]
      have hsame := pte_setPte_ne (k := k'.setPage pg (ByteVec.fill PGSIZE 0)) (p := ⟨a, i.val⟩)
        (w := PA2PTE pg ||| PTE_V) (i := j.val) (fun hc => hj (Fin.ext hc))
      rw [pte_setPage_ne (show a ≠ pg from ha)] at hsame
      refine ⟨hsame.trans ?_, (hrep j).2.frame fun x hx => ?_⟩
      · show (k'.cell a).word 8 (8 * j.val) = _
        rw [hkeep a (Trie.mem_node_self a kid)]
        exact (hrep j).1
      · have hmem : x ∈ (Trie.node a kid).nodes := Trie.mem_node_of_kid hx
        rw [hcell x (fun hc => ?_) fun hc => hpg (hc ▸ hmem), hkeep x hmem]
        subst hc
        rw [Trie.nodes_split x kid j] at hown
        exact hown.notMem_left (Trie.mem_others_self x kid j) hx
  · show (update kid i (.fresh pg n) (digit NPTE (n + 1) key)).get key
      = (kid (digit NPTE (n + 1) key)).get key
    by_cases hj : digit NPTE (n + 1) key = i
    · simp_all
    · rw [update_of_ne hj]
  · rw [hnodes]
    refine ((hm.add _).of_eq (zero_add _) rfl).trans (.trans (Kmem.moves_setPage ?_ _)
      (Kmem.moves_setPte ?_ _))
    · simp
    · exact mem_add.mpr (.inr (Trie.mem_node_self a kid))
  · rw [hnodes]
    exact le_add_left _ _

/-- `p` points to the entry of `va`. -/
def At {n : Nat} (t : PTree n) (va : Nat) (p : PtePtr) : Prop :=
  ∃ b, t.bottom (vpn va) = some b ∧ p = ⟨b, PX 0 va⟩

/-- The entry that the walk reads at an inner node. -/
theorem Rep.entry {kid : Fin NPTE → PTree n} (hrep : Rep k.cell (.node a kid)) (va : Nat) :
    k.pte ⟨a, PX (n + 1) va⟩ = link (kid (digit NPTE (n + 1) (vpn va))).name := by
  rw [px_eq]
  exact (hrep _).1

theorem walkLoop_false {t : PTree n} {pt va : Nat} (hrep : Rep k.cell t)
    (hok : ∀ x ∈ t.nodes, M.IsPage x) (hname : t.name = some pt) :
    walkLoop va false n k pt = ((t.bottom (vpn va)).map (⟨·, PX 0 va⟩), k) := by
  induction t generalizing pt with
  | nil => cases hname
  | leaf a val =>
    cases hname
    rfl
  | @node n a kid ih =>
    cases hname
    have hentry := hrep.entry va
    unfold walkLoop
    simp only [hentry]
    cases hc : (kid (digit NPTE (n + 1) (vpn va))).name with
    | none =>
      -- the subtable is missing, and so is the path
      have hnil : (Trie.node a kid).bottom (vpn va) = none := by
        show (kid _).bottom (vpn va) = none
        rw [Trie.eq_nil_of_name hc, Trie.bottom_nil]
      rw [show link none = 0 from rfl, pteHas_zero, hnil]
      rfl
    | some c =>
      have hmem := Trie.mem_node_of_kid (a := a) (Trie.mem_nodes_of_name hc)
      obtain ⟨hv, hpa, -⟩ := link_some (hok c hmem)
      rw [hv, hpa, if_pos rfl]
      exact ih _ (hrep _).2 (fun x hx => hok x (Trie.mem_node_of_kid hx)) hc

/-- Walking on in a subtable. -/
theorem At.descend {a va : Nat} {kid : Fin NPTE → PTree n} {c : PTree n} {p : PtePtr}
    (h : At c va p) :
    At (.node a (update kid (digit NPTE (n + 1) (vpn va)) c)) va p := by
  obtain ⟨b, hb, hp⟩ := h
  refine ⟨b, ?_, hp⟩
  show (update kid _ c (digit NPTE (n + 1) (vpn va))).bottom (vpn va) = some b
  rw [update_self, hb]

theorem walkLoop_true {t : PTree n} {pt : Nat} (hrep : Rep k.cell t)
    (hown : Custody M.IsPage k.toStore t.nodes) (hname : t.name = some pt) (va : Nat) :
    ∃ t', Grows k t (walkLoop va true n k pt).2 t'
      ∧ ∀ p, (walkLoop va true n k pt).1 = some p → At t' va p := by
  -- on the height: a fresh subtable is not part of `t`
  induction n generalizing pt k with
  | zero =>
    cases t with
    | nil => cases hname
    | leaf a val =>
      obtain rfl := some.inj hname
      exact ⟨.leaf a val, .refl hrep rfl, fun p hp => ⟨a, rfl, (some.inj hp).symm⟩⟩
  | succ n ih =>
    cases t with
    | nil => cases hname
    | node a kid =>
      obtain rfl := some.inj hname
      have hentry := hrep.entry va
      unfold walkLoop
      simp only [hentry]
      cases hc : (kid (digit NPTE (n + 1) (vpn va))).name with
      | none =>
        rw [show link none = 0 from rfl, pteHas_zero]
        simp only [Bool.false_eq_true, if_false, if_true]
        rcases kalloc_cases k with ⟨k', he, hk⟩ | ⟨pg, k', he, hm, hlen⟩
        · rw [he]
          exact ⟨.node a kid, .refl hrep hk, by rintro _ ⟨⟩⟩
        · rw [he]
          have hgrow := Grows.sprout hrep hown (Trie.eq_nil_of_name hc) hm hlen
          rw [← px_eq] at hgrow
          have hrep₁ := (hgrow.rep (digit NPTE (n + 1) (vpn va))).2
          rw [update_self] at hrep₁
          have hown₁ := hown.moves hgrow.moves
          have hsub := hown₁
          rw [Trie.nodes_update] at hsub
          obtain ⟨c, hsubgrow, hat⟩ := ih hrep₁ hsub.left (Trie.name_fresh pg)
          have hkid : update kid (digit NPTE (n + 1) (vpn va)) (.fresh pg n)
              (digit NPTE (n + 1) (vpn va)) = (.fresh pg n : PTree n) :=
            update_self ..
          rw [← hkid] at hsubgrow
          exact ⟨_, hgrow.trans (.descend hgrow.rep hown₁ hsubgrow),
            fun p hp => (hat p hp).descend⟩
      | some c =>
        have hmem := Trie.mem_node_of_kid (a := a) (Trie.mem_nodes_of_name hc)
        obtain ⟨hv, hpa, -⟩ := link_some (hown.ok_owned hmem)
        rw [hv, hpa, if_pos rfl]
        have hsub := hown
        rw [Trie.nodes_split a kid (digit NPTE (n + 1) (vpn va))] at hsub
        obtain ⟨t₁, hgrow, hat⟩ := ih (hrep _).2 hsub.left hc
        exact ⟨_, .descend hrep hown hgrow, fun p hp => (hat p hp).descend⟩

end Walk

/-! ## Writing an entry -/

/-- A whole page table. -/
abbrev Table := PTree 2

section Write

variable {M : Machine} {n : Nat} {k k' : Kmem} {va : Nat} {p : PtePtr}

theorem At.mem {t : PTree n} (h : At t va p) : p.page ∈ t.nodes := by
  obtain ⟨b, hb, rfl⟩ := h
  exact Trie.bottom_mem hb

theorem At.hasPath {t : PTree n} (h : At t va p) : t.HasPath (vpn va) := by
  obtain ⟨b, hb, -⟩ := h
  exact Trie.hasPath_iff.mpr ⟨b, hb⟩

theorem At.pte {t : PTree n} (h : At t va p) (hrep : Rep k.cell t) : k.pte p = t.get (vpn va) := by
  obtain ⟨b, hb, rfl⟩ := h
  induction t with
  | nil =>
    rw [Trie.bottom_nil] at hb
    cases hb
  | leaf a val =>
    obtain rfl := some.inj hb
    rw [px_eq]
    exact hrep _
  | node a kid ih => exact ih _ (hrep _).2 hb

theorem Rep.setPte {t : PTree n} (hrep : Rep k.cell t) (hnd : t.nodes.Nodup) (hat : At t va p)
    (hw : w < 2 ^ 64) : Rep (k.setPte p w).cell (t.set (vpn va) w) := by
  obtain ⟨b, hb, rfl⟩ := hat
  induction t with
  | nil =>
    rw [Trie.bottom_nil] at hb
    cases hb
  | leaf a val =>
    obtain rfl := some.inj hb
    intro i
    rw [px_eq]
    by_cases hi : i = digit NPTE 0 (vpn va)
    · rw [hi, update_self]
      exact pte_setPte_self (p := ⟨a, (digit NPTE 0 (vpn va)).val⟩) (Fin.isLt _) hw
    · rw [update_of_ne hi]
      exact (pte_setPte_ne (p := ⟨a, (digit NPTE 0 (vpn va)).val⟩) fun hc =>
        hi (Fin.ext hc)).trans (hrep i)
  | @node n a kid ih =>
    have hmem : b ∈ (kid (digit NPTE (n + 1) (vpn va))).nodes := Trie.bottom_mem hb
    rw [Trie.nodes_split a kid (digit NPTE (n + 1) (vpn va)), nodup_add] at hnd
    -- the written page lies in one subtable
    have hother : ∀ x ∈ Trie.others a kid (digit NPTE (n + 1) (vpn va)),
        (k.setPte ⟨b, PX 0 va⟩ w).cell x = k.cell x := fun x hx =>
      update_of_ne (fun hc : x = b => disjoint_left.mp hnd.2.2 hmem (hc ▸ hx)) ..
    intro i
    rw [hother a (Trie.mem_others_self ..)]
    by_cases hi : i = digit NPTE (n + 1) (vpn va)
    · rw [hi, update_self, Trie.name_set]
      exact ⟨(hrep _).1, ih _ (hrep _).2 hnd.1 hb⟩
    · rw [update_of_ne hi]
      exact ⟨(hrep i).1, (hrep i).2.frame fun x hx => hother x (Trie.mem_others hi hx)⟩

theorem vpn_lt (hva : va < MAXVA) : vpn va < NPTE ^ 3 := by
  have : va < 2 ^ 38 := hva
  show va / 4096 < 512 ^ 3
  omega

/-- Below the number of keys the entry of `va` is the only one set. -/
theorem get_set_key {t : Table} (hat : At t va p) (hva : va < MAXVA) {key : Nat}
    (hkey : key < NPTE ^ 3) :
    (t.set (vpn va) w).get key = if key = vpn va then w else t.get key := by
  rw [Trie.get_set hat.hasPath, mod_eq_of_lt (vpn_lt hva), mod_eq_of_lt hkey]
  exact if_congr eq_comm rfl rfl

end Write

end Xv6.Vm
