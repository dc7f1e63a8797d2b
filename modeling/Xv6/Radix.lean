import Mathlib

/-!
# Radix trees with named nodes

A tree of height `n` over base `B`: a bottom node holds `B` values, an
inner node `B` subtrees, either of which may be missing. A key is a
number, read digit by digit from the top. Each node has a name, such as
the address it is stored at; `nodes` collects them.

Looking up, storing and completing a path are the operations. `get_set`
and `get_congr` say that a tree with all its names forgotten is a
function on `B ^ (n + 1)` keys.
-/

namespace Radix

open Function Multiset Nat

variable {B : Nat} {α V : Type}

inductive Trie (B : Nat) (α V : Type) : Nat → Type
  | nil {n : Nat} : Trie B α V n
  | leaf (a : α) (val : Fin B → V) : Trie B α V 0
  | node {n : Nat} (a : α) (kid : Fin B → Trie B α V n) : Trie B α V (n + 1)

/-- Digit `l` of a key. -/
def digit (B : Nat) [NeZero B] (l key : Nat) : Fin B := Fin.ofNat B (key / B ^ l)

theorem digit_val [NeZero B] (l key : Nat) : (digit B l key).val = key / B ^ l % B := rfl

/-- The number with top digit `d` and the rest of `key`. -/
def compose (B l d key : Nat) : Nat := d * B ^ l + key % B ^ l

theorem digit_compose [NeZero B] {l : Nat} (d : Fin B) (key : Nat) :
    digit B l (compose B l d.val key) = d := by
  have hB : 0 < B ^ l := Nat.pow_pos (Nat.pos_of_neZero B)
  apply Fin.ext
  rw [digit_val, compose, mul_comm, mul_add_div hB, div_eq_of_lt (mod_lt _ hB),
    add_zero, mod_eq_of_lt d.isLt]

theorem compose_mod (l d key : Nat) : compose B l d key % B ^ l = key % B ^ l := by
  rw [compose, add_mod, mul_mod_left, zero_add, mod_mod, mod_mod]

/-- Keys agree on the digits up to `n` when they agree on the top one
and on the rest. -/
theorem mod_pow_succ_eq [NeZero B] {n a b : Nat} : a % B ^ (n + 1) = b % B ^ (n + 1) ↔
    digit B n a = digit B n b ∧ a % B ^ n = b % B ^ n := by
  have hsplit : ∀ c, c % B ^ (n + 1) = c % B ^ n + B ^ n * (c / B ^ n % B) := fun c => by
    rw [pow_succ, mod_mul]
  have hB : 0 < B ^ n := Nat.pow_pos (Nat.pos_of_neZero B)
  rw [Fin.ext_iff, digit_val, digit_val, hsplit a, hsplit b]
  constructor
  · intro h
    have hmod : a % B ^ n = b % B ^ n := by grind [add_mul_mod_self_left, mod_mod]
    rw [hmod] at h
    exact ⟨Nat.eq_of_mul_eq_mul_left hB (Nat.add_left_cancel h), hmod⟩
  · rintro ⟨hd, hm⟩
    rw [hd, hm]

namespace Trie

variable {n : Nat}

/-! ## Nodes -/

def name : Trie B α V n → Option α
  | nil => none
  | leaf a _ => some a
  | node a _ => some a

def nodes : {n : Nat} → Trie B α V n → Multiset α
  | _, nil => 0
  | _, leaf a _ => {a}
  | _, node a kid => {a} + ∑ i, (kid i).nodes

/-- A node without subtrees, or with the same value throughout. -/
def fresh [Zero V] (a : α) : (n : Nat) → Trie B α V n
  | 0 => leaf a fun _ => 0
  | _ + 1 => node a fun _ => nil

@[simp] theorem nodes_nil : (nil : Trie B α V n).nodes = 0 := by
  cases n <;> rfl

@[simp] theorem nodes_leaf (a : α) (val : Fin B → V) : (leaf a val).nodes = {a} := rfl

theorem nodes_node (a : α) (kid : Fin B → Trie B α V n) :
    (node a kid).nodes = {a} + ∑ i, (kid i).nodes := rfl

@[simp] theorem nodes_fresh [Zero V] (a : α) :
    (fresh a n : Trie B α V n).nodes = {a} := by
  cases n with
  | zero => rfl
  | succ n => simp [fresh, nodes_node]

@[simp] theorem name_fresh [Zero V] (a : α) : (fresh a n : Trie B α V n).name = some a := by
  cases n <;> rfl

theorem eq_nil_of_name {t : Trie B α V n} (h : t.name = none) : t = nil := by
  cases t with
  | nil => rfl
  | leaf a val => cases h
  | node a kid => cases h

theorem mem_nodes_of_name {t : Trie B α V n} {a : α} (h : t.name = some a) : a ∈ t.nodes := by
  cases t with
  | nil => cases h
  | leaf b val =>
    cases h
    exact mem_singleton_self _
  | node b kid =>
    cases h
    exact mem_add.mpr (.inl (mem_singleton_self _))

theorem mem_leaf_self (a : α) (val : Fin B → V) : a ∈ (leaf a val).nodes :=
  mem_singleton_self _

theorem mem_node_self (a : α) (kid : Fin B → Trie B α V n) : a ∈ (node a kid).nodes :=
  mem_add.mpr (.inl (mem_singleton_self _))

/-- The nodes outside one subtree. -/
def others (a : α) (kid : Fin B → Trie B α V n) (i : Fin B) : Multiset α :=
  {a} + ∑ j ∈ Finset.univ.erase i, (kid j).nodes

theorem nodes_split (a : α) (kid : Fin B → Trie B α V n) (i : Fin B) :
    (node a kid).nodes = (kid i).nodes + others a kid i := by
  rw [nodes_node, others, ← Finset.add_sum_erase Finset.univ (fun j => (kid j).nodes)
    (Finset.mem_univ i), add_left_comm]

theorem nodes_update (a : α) (kid : Fin B → Trie B α V n) (i : Fin B) (c : Trie B α V n) :
    (node a (update kid i c)).nodes = c.nodes + others a kid i := by
  rw [nodes_split a _ i, update_self]
  congr 1
  unfold others
  congr 1
  refine Finset.sum_congr rfl fun j hj => ?_
  rw [update_of_ne (Finset.ne_of_mem_erase hj)]

theorem mem_others_self (a : α) (kid : Fin B → Trie B α V n) (i : Fin B) : a ∈ others a kid i :=
  mem_add.mpr (.inl (mem_singleton_self _))

theorem mem_sum_nodes {kid : Fin B → Trie B α V n} {s : Finset (Fin B)} {x : α} :
    x ∈ ∑ j ∈ s, (kid j).nodes ↔ ∃ j ∈ s, x ∈ (kid j).nodes := by
  classical
  induction s using Finset.induction_on with
  | empty => simp
  | insert j s hj ih => simp [Finset.sum_insert hj, ih]

theorem mem_others {a : α} {kid : Fin B → Trie B α V n} {i j : Fin B} {x : α} (hj : j ≠ i)
    (hx : x ∈ (kid j).nodes) : x ∈ others a kid i :=
  mem_add.mpr (.inr (mem_sum_nodes.mpr ⟨j, Finset.mem_erase.mpr ⟨hj, Finset.mem_univ j⟩,
    hx⟩))

theorem mem_node_of_kid {a : α} {kid : Fin B → Trie B α V n} {i : Fin B} {x : α}
    (hx : x ∈ (kid i).nodes) : x ∈ (node a kid).nodes := by
  rw [nodes_split a kid i]
  exact mem_add.mpr (.inl hx)

-- unfolding a sum over the `B` entries of a node is never of use
attribute [irreducible] nodes others

/-! ## Places of nodes -/

/-- The node at the end of a path from the top. -/
def nameAt : {n : Nat} → Trie B α V n → List (Fin B) → Option α
  | _, nil, _ => none
  | _, leaf a _, [] => some a
  | _, leaf .., _ :: _ => none
  | _, node a _, [] => some a
  | _, node _ kid, i :: is => (kid i).nameAt is

theorem nameAt_nil (path : List (Fin B)) : (nil : Trie B α V n).nameAt path = none := by
  cases n <;> rfl

theorem exists_nameAt {t : Trie B α V n} {a : α} (h : a ∈ t.nodes) :
    ∃ path, path.length ≤ n ∧ t.nameAt path = some a := by
  induction t with
  | nil =>
    simp_all
  | leaf c val =>
    rw [nodes_leaf, mem_singleton] at h
    exact ⟨[], zero_le _, by rw [h]; rfl⟩
  | node c kid ih =>
    rw [nodes_node, mem_add, mem_singleton, mem_sum_nodes] at h
    rcases h with rfl | ⟨i, -, hi⟩
    · exact ⟨[], zero_le _, rfl⟩
    · obtain ⟨path, hlen, hpath⟩ := ih i hi
      exact ⟨i :: path, succ_le_succ hlen, hpath⟩

theorem nameAt_mem {t : Trie B α V n} {path : List (Fin B)} {a : α} (h : t.nameAt path = some a) :
    a ∈ t.nodes := by
  induction t generalizing path with
  | nil =>
    rw [nameAt_nil] at h
    cases h
  | leaf c val =>
    cases path with
    | nil =>
      cases h
      exact mem_leaf_self ..
    | cons i path => cases h
  | node c kid ih =>
    cases path with
    | nil =>
      cases h
      exact mem_node_self ..
    | cons i path => exact mem_node_of_kid (ih i h)

/-- In a tree without a name used twice, a name has one place. -/
theorem nameAt_inj {t : Trie B α V n} {path path' : List (Fin B)} {a : α} (hnd : t.nodes.Nodup)
    (h : t.nameAt path = some a) (h' : t.nameAt path' = some a) : path = path' := by
  induction t generalizing path path' with
  | nil =>
    rw [nameAt_nil] at h
    cases h
  | leaf c val =>
    cases path with
    | cons i path => cases h
    | nil =>
      cases path' with
      | nil => rfl
      | cons i path' => cases h'
  | node c kid ih =>
    have hout : ∀ {i : Fin B} {x : α}, x ∈ (kid i).nodes → x ∉ others c kid i := fun hx => by
      rw [nodes_split c kid] at hnd
      exact disjoint_left.mp (nodup_add.mp hnd).2.2 hx
    cases path with
    | nil =>
      cases h
      cases path' with
      | nil => rfl
      | cons i path' => exact absurd (mem_others_self ..) (hout (nameAt_mem h'))
    | cons i path =>
      cases path' with
      | nil =>
        cases h'
        exact absurd (mem_others_self ..) (hout (nameAt_mem h))
      | cons j path' =>
        by_cases hij : j = i
        · subst hij
          rw [nodes_split c kid j] at hnd
          rw [ih j (nodup_add.mp hnd).1 h h']
        · exact absurd (mem_others hij (nameAt_mem h')) (hout (nameAt_mem h))

/-! ## Lookup and update -/

variable [NeZero B]

def get [Zero V] : {n : Nat} → Trie B α V n → Nat → V
  | _, nil, _ => 0
  | _, leaf _ val, key => val (digit B 0 key)
  | n + 1, node _ kid, key => (kid (digit B (n + 1) key)).get key

/-- The path of a key ends in a bottom node. -/
def HasPath : {n : Nat} → Trie B α V n → Nat → Prop
  | _, nil, _ => False
  | _, leaf .., _ => True
  | n + 1, node _ kid, key => (kid (digit B (n + 1) key)).HasPath key

/-- The bottom node on the path of a key. -/
def bottom : {n : Nat} → Trie B α V n → Nat → Option α
  | _, nil, _ => none
  | _, leaf a _, _ => some a
  | n + 1, node _ kid, key => (kid (digit B (n + 1) key)).bottom key

def set : {n : Nat} → Trie B α V n → Nat → V → Trie B α V n
  | _, nil, _, _ => nil
  | _, leaf a val, key, v => leaf a (update val (digit B 0 key) v)
  | n + 1, node a kid, key, v =>
      node a (update kid (digit B (n + 1) key) ((kid (digit B (n + 1) key)).set key v))

@[simp] theorem get_nil [Zero V] (key : Nat) : (nil : Trie B α V n).get key = 0 := by
  cases n <;> rfl

@[simp] theorem get_fresh [Zero V] (a : α) (key : Nat) :
    (fresh a n : Trie B α V n).get key = 0 := by
  cases n with
  | zero => rfl
  | succ n => exact get_nil key

theorem bottom_nil (key : Nat) : (nil : Trie B α V n).bottom key = none := by
  cases n <;> rfl

theorem hasPath_iff {t : Trie B α V n} {key : Nat} : t.HasPath key ↔ ∃ a, t.bottom key = some a := by
  induction t with
  | @nil n =>
    constructor
    · intro h
      cases n <;> exact h.elim
    · simp [bottom_nil]
  | leaf a val => exact ⟨fun _ => ⟨a, rfl⟩, fun _ => trivial⟩
  | node a kid ih => exact ih _

/-- A value other than the default has a path. -/
theorem hasPath_of_get_ne [Zero V] {t : Trie B α V n} {key : Nat} (h : t.get key ≠ 0) :
    t.HasPath key := by
  induction t with
  | nil => exact absurd (get_nil key) h
  | leaf a val => trivial
  | node a kid ih => exact ih _ h

/-- A lookup reads the digits up to the height. -/
theorem get_congr [Zero V] {t : Trie B α V n} {a b : Nat} (h : a % B ^ (n + 1) = b % B ^ (n + 1)) :
    t.get a = t.get b := by
  induction t with
  | nil => rw [get_nil, get_nil]
  | leaf c val =>
    have hd : digit B 0 a = digit B 0 b := (mod_pow_succ_eq.mp h).1
    show val (digit B 0 a) = val (digit B 0 b)
    rw [hd]
  | @node n c kid ih =>
    obtain ⟨hd, hm⟩ := mod_pow_succ_eq.mp h
    show (kid (digit B (n + 1) a)).get a = (kid (digit B (n + 1) b)).get b
    rw [hd]
    exact ih _ hm

/-- Every entry has a key. -/
theorem get_leaf_compose [Zero V] (a : α) (val : Fin B → V) (i : Fin B) :
    (leaf a val).get (compose B 0 i.val 0) = val i := by
  show val (digit B 0 (compose B 0 i.val 0)) = val i
  rw [digit_compose]

theorem get_node_compose [Zero V] (a : α) (kid : Fin B → Trie B α V n) (i : Fin B) (key : Nat) :
    (node a kid).get (compose B (n + 1) i.val key) = (kid i).get key := by
  show (kid (digit B (n + 1) (compose B (n + 1) i.val key))).get _ = _
  rw [digit_compose]
  exact get_congr (compose_mod ..)

theorem get_set [Zero V] {t : Trie B α V n} {a : Nat} (hpath : t.HasPath a) (b : Nat) (v : V) :
    (t.set a v).get b = if a % B ^ (n + 1) = b % B ^ (n + 1) then v else t.get b := by
  induction t with
  | @nil n => cases n <;> exact hpath.elim
  | leaf c val =>
    show update val (digit B 0 a) v (digit B 0 b) = _
    by_cases hd : digit B 0 b = digit B 0 a
    · rw [hd, update_self,
        if_pos (mod_pow_succ_eq.mpr ⟨hd.symm, by simp [mod_one]⟩)]
    · rw [update_of_ne hd, if_neg fun hc => hd (mod_pow_succ_eq.mp hc).1.symm]
      rfl
  | @node n c kid ih =>
    show (update kid (digit B (n + 1) a) ((kid (digit B (n + 1) a)).set a v)
      (digit B (n + 1) b)).get b = _
    by_cases hd : digit B (n + 1) b = digit B (n + 1) a
    · rw [hd, update_self, ih _ hpath]
      refine if_congr ⟨fun h => mod_pow_succ_eq.mpr ⟨hd.symm, h⟩, fun h =>
        (mod_pow_succ_eq.mp h).2⟩ rfl ?_
      show (kid (digit B (n + 1) a)).get b = (kid (digit B (n + 1) b)).get b
      rw [hd]
    · rw [update_of_ne hd, if_neg fun hc => hd (mod_pow_succ_eq.mp hc).1.symm]
      rfl

@[simp] theorem name_set (t : Trie B α V n) (a : Nat) (v : V) : (t.set a v).name = t.name := by
  cases t with
  | nil => cases n <;> rfl
  | leaf c val => rfl
  | node c kid => rfl

@[simp] theorem nodes_set (t : Trie B α V n) (a : Nat) (v : V) : (t.set a v).nodes = t.nodes := by
  induction t with
  | @nil n => cases n <;> rw [set]
  | leaf c val => rw [set, nodes_leaf, nodes_leaf]
  | @node n c kid ih =>
    show (node c (update kid _ _)).nodes = _
    rw [nodes_update, ih, ← nodes_split]

theorem bottom_mem {t : Trie B α V n} {key : Nat} {a : α} (h : t.bottom key = some a) :
    a ∈ t.nodes := by
  induction t with
  | nil =>
    rw [bottom_nil] at h
    cases h
  | leaf c val =>
    cases h
    exact mem_leaf_self ..
  | node c kid ih => exact mem_node_of_kid (ih _ h)

end Trie

end Radix
