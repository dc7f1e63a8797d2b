import Xv6.PageMap
import Xv6.Sbrk

/-!
# Growing user memory

`uvmalloc` on a table of user pages, each a physical page of its own: it
adds all the pages up to the new size or leaves no trace but pages of
the table itself, and `uvmdealloc` undoes what it added.
-/

namespace Xv6.Vm

open Transfer Radix Multiset Nat

/-- A table that maps the first `n` pages of user space, each to a
physical page of its own. -/
structure UserSpace (M : Machine) (k : Kmem) (pt n : Nat) (t : Table) : Prop where
  rep : Rep k.cell t
  name : t.name = some pt
  user : UserPart t n
  owned : Custody M.IsPage k.toStore (spacePages t n)

/-- All translations are as before; pages that are no longer free are
pages of the table. -/
structure Untraced (k : Kmem) (t : Table) (k' : Kmem) (t' : Table) : Prop where
  get : ∀ key < NPTE ^ 3, t'.get key = t.get key
  conserve : (k'.free : Multiset Nat) + t'.nodes = k.free + t.nodes
  sub : t.nodes ≤ t'.nodes

/-- The pages numbered `v` to `w` were added: zeroed, each a page of its
own that was free. -/
structure Added (k : Kmem) (t : Table) (k' : Kmem) (t' : Table) (v w : Nat) : Prop where
  get : ∀ key < NPTE ^ 3, key < v ∨ w ≤ key → t'.get key = t.get key
  new : ∀ key, v ≤ key → key < w → ∃ mem ∈ k.free, mem ∉ k'.free
    ∧ t'.get key = mapEntry mem userPerm ∧ k'.cell mem = ByteVec.fill PGSIZE 0
  own : ∀ a b, v ≤ a → a < w → v ≤ b → b < w → PTE2PA (t'.get a) = PTE2PA (t'.get b) → a = b

section Growth

variable {M : Machine} {k k' : Kmem} {t t' : Table} {pt n oldsz newsz : Nat}

theorem UserSpace.count (h : UserSpace M k pt n t) : n + k.free.length ≤ USERTOP := by
  have hcount := Space.count h.name h.owned
  show _ ≤ 2 ^ 26 - 2
  omega

/-- A page of a new entry was free, since the old table is part of the
new one. -/
theorem Extends.mem_free {v m mem : Nat} {val : Nat → Page}
    (hown : Custody M.IsPage k.toStore t.nodes) (he : Extends M k t k' t' v m userFlags val)
    (hmem : mem ∈ leafPages t' v m) : mem ∈ k.free ∧ mem ∉ k'.free := by
  have hown' := hown.moves he.moves
  have hnode : mem ∉ t'.nodes := fun hc => hown'.notMem_left hmem hc
  have hall : mem ∈ (k.free : Multiset Nat) + t.nodes := by simp_all [← he.moves.conserve]
  refine ⟨(mem_add.mp hall).resolve_right fun hc => hnode (mem_of_le he.sub hc), ?_⟩
  exact hown'.notMem_free (mem_add.mpr (.inr hmem))

theorem Extends.added {v m : Nat} (hown : Custody M.IsPage k.toStore t.nodes)
    (he : Extends M k t k' t' v m userFlags zeroPage) : Added k t k' t' v (v + m) := by
  have hown' := hown.moves he.moves
  refine ⟨he.get, fun key h1 h2 => ?_, fun a b h1 h2 h3 h4 heq => ?_⟩
  · obtain ⟨mem, hpage, hget, hval⟩ := he.new key h1 h2
    have hpa : PTE2PA (t'.get key) = mem := by rw [hget, isPage_pa hpage (userFlags_lt key)]
    obtain ⟨hfree, hfree'⟩ := he.mem_free hown (mem_leafPages.mpr ⟨key, h1, h2, hpa⟩)
    exact ⟨mem, hfree, hfree', hget, hval⟩
  · exact leafPages_inj (nodup_of_le (le_add_left _ _) hown'.nodup_owned) h1 h2 h3 h4 heq

theorem Withdrawn.untraced {v : Nat} (hw : Withdrawn k t k' t' v 0) : Untraced k t k' t' := by
  refine ⟨fun key hkey => ?_, ?_, hw.sub⟩
  · rw [hw.get key hkey, if_neg (by omega)]
  · rw [hw.moves.conserve, leafPages, add_zero]

/-- What owns only the table leaves the user pages as they are. -/
theorem UserSpace.sameBelow {A : Multiset Nat} (h : UserSpace M k pt n t)
    (hm : Moves k.toStore t.nodes k'.toStore A) (hget : ∀ key < n, t'.get key = t.get key) :
    SameBelow k t k' t' n := .of_moves h.owned hm hget

/-- The mappings are restored by shrinking again. -/
theorem UserSpace.uvmdealloc (h : UserSpace M k pt (npg oldsz) t) (hle : oldsz ≤ newsz)
    (he : Extends M k t k' t' (npg oldsz) (npg newsz - npg oldsz) userFlags zeroPage)
    (hu : UserPart t' (npg newsz)) :
    ∃ k'' t'', uvmdealloc M k' pt newsz oldsz = .ok (oldsz, k'') ∧ Rep k''.cell t''
      ∧ t''.name = some pt ∧ SameBelow k t k'' t'' (npg oldsz) ∧ Untraced k t k'' t'' := by
  have hpages : npg oldsz + (npg newsz - npg oldsz) = npg newsz := Nat.add_sub_cancel' (npg_mono hle)
  have hold := h.user.le
  rcases lt_or_eq_of_le hle with hlt | rfl
  · obtain ⟨k'', t'', hrun, hc, hm⟩ := uvmdealloc_lt newsz oldsz hlt hu.le he.rep
      (h.owned.left.moves he.moves) (he.name.trans h.name) fun key _ h2 => hu.leaf key h2
    have hmoves := he.moves.trans hm
    have hget : ∀ key < NPTE ^ 3, t''.get key = t.get key := fun key hkey => by
      rw [hc.get key hkey, hpages]
      split
      · rename_i hin
        exact (h.user.none key hin.1 (lt_of_lt_of_le hin.2 hu.le)).symm
      · exact he.get key hkey (by omega)
    refine ⟨k'', t'', hrun, hc.rep, hc.name.trans (he.name.trans h.name), h.sameBelow hmoves
      fun key hkey => hget key (key_lt_of_userTop (by omega)), hget, ?_, ?_⟩
    · rw [hc.nodes, hmoves.conserve]
    · rw [hc.nodes]
      exact he.sub
  · rw [Nat.sub_self] at he
    have hmoves := he.moves
    rw [leafPages, add_zero] at hmoves
    have hget : ∀ key < NPTE ^ 3, t'.get key = t.get key := fun key hkey => he.get key hkey (by omega)
    exact ⟨k', t', uvmdealloc_ge le_rfl, he.rep, he.name.trans h.name, h.sameBelow hmoves
      fun key hkey => hget key (key_lt_of_userTop (by omega)), hget, hmoves.conserve, he.sub⟩

/-- `uvmalloc` on a table that maps exactly the pages below `oldsz`. -/
theorem uvmalloc_all_or_nothing (h : UserSpace M k pt (npg oldsz) t) (hle : oldsz ≤ newsz) :
    ∃ r k' t', uvmalloc M k pt oldsz newsz = .ok (r, k') ∧ Rep k'.cell t' ∧ t'.name = some pt
      ∧ (r = 0 ∨ r = newsz) ∧ SameBelow k t k' t' (npg oldsz)
      ∧ (r = 0 → 0 < newsz → Untraced k t k' t')
      ∧ (r = newsz → Added k t k' t' (npg oldsz) (npg newsz)
        ∧ ∃ k'' t'', uvmdealloc M k' pt newsz oldsz = .ok (oldsz, k'') ∧ Rep k''.cell t''
          ∧ t''.name = some pt ∧ SameBelow k t k'' t'' (npg oldsz) ∧ Untraced k t k'' t'') := by
  have hold := h.user.le
  have hpages : npg oldsz + (npg newsz - npg oldsz) = npg newsz := Nat.add_sub_cancel' (npg_mono hle)
  obtain ⟨r, k', t', hrun, hres⟩ := uvmalloc_ok newsz h.rep h.owned.left h.name h.user h.count hle
  refine ⟨r, k', t', hrun, ?_⟩
  rcases hres with ⟨rfl, he, hu⟩ | ⟨rfl, hw⟩
  · have hadded := he.added h.owned.left
    rw [hpages] at hadded
    refine ⟨he.rep, he.name.trans h.name, .inr rfl, h.sameBelow he.moves fun key hkey => ?_,
      fun h0 hpos => absurd h0 (ne_of_gt hpos), fun _ => ⟨hadded, h.uvmdealloc hle he hu⟩⟩
    exact he.get key (key_lt_of_userTop (by omega)) (.inl hkey)
  · have hun := hw.untraced
    have hmoves : Moves k.toStore t.nodes k'.toStore t'.nodes := hw.moves.of_eq (add_zero _) rfl
    have hsame : SameBelow k t k' t' (npg oldsz) := h.sameBelow hmoves fun key hkey =>
      hun.get key (key_lt_of_userTop (by omega))
    refine ⟨hw.rep, hw.name.trans h.name, .inl rfl, hsame, fun _ _ => hun, fun h0 => ?_⟩
    -- only with both sizes 0 is the result also the new size
    obtain rfl : newsz = 0 := h0.symm
    obtain rfl : oldsz = 0 := by omega
    exact ⟨⟨fun key hkey _ => hun.get key hkey, fun key h1 h2 => absurd h2 (not_lt.mpr h1),
      fun a b h1 h2 => absurd h2 (not_lt.mpr h1)⟩, k', t', uvmdealloc_ge le_rfl, hw.rep,
      hw.name.trans h.name, hsame, hun⟩

/-- From an empty table, and with three free pages, two pages cannot be
had. -/
theorem uvmalloc_all_or_nothing_two :
    ∃ t r k' t', UserSpace smallMachine (uvmcreate fourPages).2 0x80002000 (npg 0) t
      ∧ uvmalloc smallMachine (uvmcreate fourPages).2 0x80002000 0 5000 = .ok (r, k') ∧ r = 0
      ∧ Untraced (uvmcreate fourPages).2 t k' t' := by
  have htable : IsTable smallMachine 0x80002000 ⟨(uvmcreate fourPages).2, _⟩ _ :=
    isTable_uvmcreate fourPages_owned rfl
  have h : UserSpace smallMachine (uvmcreate fourPages).2 0x80002000 (npg 0)
      (.fresh 0x80002000 2) := by
    refine ⟨htable.rep, htable.name, ⟨zero_le _, fun key hkey => absurd hkey (not_lt_zero key),
      fun key _ _ => Trie.get_fresh ..⟩, htable.owned⟩
  obtain ⟨r, k', t', hrun, -, -, -, -, hzero, -⟩ :=
    uvmalloc_all_or_nothing h (show 0 ≤ 5000 by decide)
  have heval : (uvmalloc smallMachine (uvmcreate fourPages).2 0x80002000 0 5000).toOption.any
      (fun r => decide (r.1 = 0)) = true := by
    decide +kernel
  rw [hrun] at heval
  have hr : r = 0 := of_decide_eq_true heval
  exact ⟨_, r, k', t', h, hrun, hr, hzero hr (by decide)⟩

end Growth

end Xv6.Vm
