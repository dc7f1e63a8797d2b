import Xv6.DirModel
import Xv6.Tally

/-!
# What directory entries and link counts say about each other

A directory holds `.` in slot 0, `..` in slot 1 and named entries from
slot 2 on. The links to an inode are the named entries for it in all
directories and the `..` of the directories that have links themselves:
a removed directory, kept alive by a reference, no longer counts in its
parent. `Names` relates these links to `nlink`, up to the links that a
running call has already counted but not yet entered (`pend`).
-/

namespace Xv6

open Tally List Nat

/-! ## Slots -/

section Slots

variable {es : List Dirent} {e x : Dirent} {k y : Nat}

theorem mem_enter (h : x ∈ enter es e) : x = e ∨ x ∈ es := by
  unfold enter at h
  grind

theorem mem_enter_self : e ∈ enter es e := by
  unfold enter
  split
  · rename_i k hk
    have hlt := (findIdx?_eq_some_iff_getElem.mp hk).1
    exact mem_set hlt _
  · simp

/-- A used entry stays. -/
theorem mem_enter_of_mem (h : x ∈ es) (hx : x.inum ≠ 0) : x ∈ enter es e := by
  unfold enter
  split
  · rename_i k hk
    obtain ⟨hlt, hfree, -⟩ := findIdx?_eq_some_iff_getElem.mp hk
    grind [mem_iff_getElem]
  · exact mem_append_left _ h

/-- The entries for inode `y`. -/
def namesOf (es : List Dirent) (y : Nat) : Nat := es.countP fun e => decide (e.inum = y)

theorem namesOf_pos : 0 < namesOf es y ↔ ∃ e ∈ es, e.inum = y := by
  unfold namesOf
  simp

theorem namesOf_eq_zero : namesOf es y = 0 ↔ ∀ e ∈ es, e.inum ≠ y := by
  unfold namesOf
  simp

theorem namesOf_set (hk : k < es.length) :
    namesOf (es.set k e) y + (if es[k].inum = y then 1 else 0)
      = namesOf es y + if e.inum = y then 1 else 0 := by
  unfold namesOf
  rw [countP_set hk]
  have hle : (if decide (es[k].inum = y) = true then 1 else 0)
      ≤ es.countP fun e => decide (e.inum = y) := by
    split
    · grind
    · exact zero_le _
  simp only [decide_eq_true_eq] at hle ⊢
  omega

theorem namesOf_enter (hy : y ≠ 0) :
    namesOf (enter es e) y = namesOf es y + if e.inum = y then 1 else 0 := by
  unfold enter
  split
  · rename_i k hk
    obtain ⟨hlt, hfree, -⟩ := findIdx?_eq_some_iff_getElem.mp hk
    have hset := namesOf_set (e := e) (y := y) hlt
    grind
  · unfold namesOf
    simp

end Slots

/-! ## Directory nodes -/

namespace Node

/-- The named entries. -/
def rest (nd : Node) : List Dirent := nd.ents.drop 2

/-- The inode `..` names. -/
def dotdot (nd : Node) : Nat := nd.inumAt 1

/-- Slots 0 and 1 of directory `d`, and no other entry with their
names. -/
structure Dots (nd : Node) (d : Nat) : Prop where
  ents : nd.ents = ⟨d, dotName⟩ :: ⟨nd.dotdot, dotdotName⟩ :: nd.rest
  up_ne : nd.dotdot ≠ 0
  names : ∀ e ∈ nd.rest, e.inum ≠ 0 → e.name ≠ dotName ∧ e.name ≠ dotdotName

variable {nd : Node} {d k y : Nat} {e : Dirent}

theorem inumAt_eq {k : Nat} (h : nd.ents[k]? = some e) : nd.inumAt k = e.inum := by
  rw [inumAt, getD_eq_getElem?_getD, h]
  rfl

theorem dotdot_of_ents {nd' : Node} (h : nd'.ents = nd.ents) : nd'.dotdot = nd.dotdot := by
  rw [dotdot, inumAt, h, dotdot, inumAt]

theorem Dots.of_ents {nd' : Node} (h : nd.Dots d) (he : nd'.ents = nd.ents) : nd'.Dots d := by
  have hrest : nd'.rest = nd.rest := by rw [rest, he, rest]
  refine ⟨?_, ?_, ?_⟩
  · rw [he, hrest, dotdot_of_ents he]
    exact h.ents
  · rw [dotdot_of_ents he]
    exact h.up_ne
  · rw [hrest]
    exact h.names

/-- A new entry of a directory goes to the named ones. -/
theorem Dots.link_ents (h : nd.Dots d) (hd : d ≠ 0) :
    (nd.link e).ents = ⟨d, dotName⟩ :: ⟨nd.dotdot, dotdotName⟩ :: enter nd.rest e := by
  have h0 : (decide ((⟨d, dotName⟩ : Dirent).inum = 0)) = false := decide_eq_false hd
  have h1 : (decide ((⟨nd.dotdot, dotdotName⟩ : Dirent).inum = 0)) = false :=
    decide_eq_false h.up_ne
  show enter nd.ents e = _
  rw [h.ents]
  unfold enter
  rw [findIdx?_cons, h0, findIdx?_cons, h1]
  cases nd.rest.findIdx? fun e => decide (e.inum = 0) with
  | none => rfl
  | some k => rfl

theorem Dots.link_rest (h : nd.Dots d) (hd : d ≠ 0) : (nd.link e).rest = enter nd.rest e := by
  rw [rest, h.link_ents hd]
  rfl

theorem Dots.link_dotdot (h : nd.Dots d) (hd : d ≠ 0) : (nd.link e).dotdot = nd.dotdot := by
  rw [dotdot, inumAt, h.link_ents hd]
  rfl

theorem Dots.link (h : nd.Dots d) (hd : d ≠ 0)
    (he : e.name ≠ dotName ∧ e.name ≠ dotdotName) : (nd.link e).Dots d := by
  refine ⟨?_, by rw [h.link_dotdot hd]; exact h.up_ne, fun x hx hne => ?_⟩
  · rw [h.link_rest hd, h.link_dotdot hd, h.link_ents hd]
  · rw [h.link_rest hd] at hx
    rcases mem_enter hx with rfl | hx
    · exact he
    · exact h.names x hx hne

theorem Dots.erase_ents (h : nd.Dots d) :
    (nd.erase (k + 2)).ents
      = ⟨d, dotName⟩ :: ⟨nd.dotdot, dotdotName⟩ :: nd.rest.set k ⟨0, []⟩ := by
  show nd.ents.set (k + 2) ⟨0, []⟩ = _
  conv_lhs => rw [h.ents]
  rfl

theorem Dots.erase_rest (h : nd.Dots d) : (nd.erase (k + 2)).rest = nd.rest.set k ⟨0, []⟩ := by
  rw [rest, h.erase_ents]
  rfl

theorem Dots.erase_dotdot (h : nd.Dots d) : (nd.erase (k + 2)).dotdot = nd.dotdot := by
  rw [dotdot, inumAt, h.erase_ents]
  rfl

theorem Dots.erase (h : nd.Dots d) : (nd.erase (k + 2)).Dots d := by
  refine ⟨?_, by rw [h.erase_dotdot]; exact h.up_ne, fun x hx hne => ?_⟩
  · rw [h.erase_rest, h.erase_dotdot, h.erase_ents]
  · rw [h.erase_rest] at hx
    rcases mem_or_eq_of_mem_set hx with hx | rfl
    · exact h.names x hx hne
    · exact absurd rfl hne

theorem lookup_some {nm : Name} (hl : nd.lookup nm = some k) :
    ∃ e, nd.ents[k]? = some e ∧ e.inum ≠ 0 ∧ e.name = nm := by
  obtain ⟨hlt, hp, -⟩ := findIdx?_eq_some_iff_getElem.mp hl
  obtain ⟨hne, hname⟩ := of_decide_eq_true hp
  exact ⟨nd.ents[k], getElem?_eq_getElem hlt, hne, hname⟩

/-- What `dirlookup` can find: one of the dots, or a named entry. -/
theorem Dots.lookup_cases (h : nd.Dots d) {nm : Name} (hl : nd.lookup nm = some k) :
    k = 0 ∧ nm = dotName ∧ nd.inumAt k = d ∨ k = 1 ∧ nm = dotdotName ∧ nd.inumAt k = nd.dotdot
      ∨ ∃ j e, k = j + 2 ∧ nd.rest[j]? = some e ∧ e.inum ≠ 0 ∧ e.name = nm ∧ nd.inumAt k = e.inum := by
  obtain ⟨e, hget, hne, hname⟩ := lookup_some hl
  have hinum := inumAt_eq hget
  rw [h.ents] at hget
  match k, hget with
  | 0, hget =>
    grind
  | 1, hget =>
    grind
  | j + 2, hget => exact .inr (.inr ⟨j, e, rfl, hget, hne, hname, hinum⟩)

end Node

/-! ## Links -/

/-- The links from one node to inode `y`. -/
def Node.linksTo (nd : Node) (y : Nat) : Nat :=
  if nd.type = some .dir then
    namesOf nd.rest y + if nd.nlink ≠ 0 ∧ nd.dotdot = y then 1 else 0
  else 0

/-- The links to inode `y`. -/
def links (n : Nat) (N : Nat → Node) (y : Nat) : Nat := ∑ d ∈ Finset.range n, (N d).linksTo y

/-- `n` inodes with exact link counts. -/
structure Names (n : Nat) (N : Nat → Node) (pend : Nat → Nat) : Prop where
  /-- inode numbers fit a `ushort` -/
  fits : n ≤ 2 ^ 16
  range : ∀ i, (N i).type ≠ none → 0 < i ∧ i < n
  plain : ∀ i, (N i).type ≠ some .dir → (N i).ents = []
  dots : ∀ d, (N d).type = some .dir → (N d).Dots d
  /-- a removed directory has no entries -/
  clean : ∀ d, (N d).type = some .dir → (N d).nlink = 0 → ∀ e ∈ (N d).rest, e.inum = 0
  /-- the link count is exact -/
  count : ∀ x, (N x).type ≠ none → (N x).nlink = (links n N x + pend x : Nat)
  bound : ∀ x, (N x).type ≠ none → (N x).nlink ≤ 32767
  free : ∀ x, 0 < x → (N x).type = none → links n N x = 0 ∧ pend x = 0
  /-- a directory is entered only in its parent, and once -/
  parent : ∀ d, (N d).type = some .dir → ∀ e ∈ (N d).rest, (N e.inum).type = some .dir →
    (N e.inum).dotdot = d
  once : ∀ d c, (N d).type = some .dir → (N c).type = some .dir → namesOf (N d).rest c ≤ 1
  named : ∀ c, (N c).type = some .dir → (N c).nlink ≠ 0 → c ≠ ROOTINO → pend c = 0 →
    (N (N c).dotdot).type = some .dir ∧ ∃ e ∈ (N (N c).dotdot).rest, e.inum = c
  root : (N ROOTINO).type = some .dir
  root_up : (N ROOTINO).dotdot = ROOTINO
  root_live : (N ROOTINO).nlink ≠ 0
  root_named : pend ROOTINO = 0 ∧
    ∀ d, (N d).type = some .dir → ∀ e ∈ (N d).rest, e.inum ≠ ROOTINO
  /-- the parents of a directory end at the root -/
  ranked : ∃ depth : Nat → Nat, ∀ c, (N c).type = some .dir → (N c).nlink ≠ 0 → c ≠ ROOTINO →
    depth (N c).dotdot < depth c

/-- The `..` of every directory, removed ones included, names a
directory with links. -/
def Up (N : Nat → Node) : Prop :=
  ∀ d, (N d).type = some .dir →
    (N (N d).dotdot).type = some .dir ∧ (N (N d).dotdot).nlink ≠ 0

section Links

variable {n : Nat} {N N' : Nat → Node} {pend : Nat → Nat} {d x y : Nat}

/-- A change at one node. -/
theorem links_off (N N' : Nat → Node) (y : Nat) {i : Nat} (hi : i < n)
    (h : ∀ j ≠ i, (N' j).linksTo y = (N j).linksTo y) :
    links n N' y + (N i).linksTo y = links n N y + (N' i).linksTo y :=
  sum_off (f := fun j => (N j).linksTo y) (g := fun j => (N' j).linksTo y)
    (Finset.mem_range.mpr hi) h

theorem links_congr (h : ∀ j, (N' j).linksTo y = (N j).linksTo y) : links n N' y = links n N y :=
  Finset.sum_congr rfl fun j _ => h j

theorem le_links {i : Nat} (hi : i < n) : (N i).linksTo y ≤ links n N y :=
  Finset.single_le_sum (f := fun j => (N j).linksTo y) (fun _ _ => zero_le _)
    (Finset.mem_range.mpr hi)

theorem Node.linksTo_of_not_dir {nd : Node} (h : nd.type ≠ some .dir) (y : Nat) :
    nd.linksTo y = 0 := if_neg h

theorem Node.linksTo_dir {nd : Node} (h : nd.type = some .dir) (y : Nat) :
    nd.linksTo y = namesOf nd.rest y + if nd.nlink ≠ 0 ∧ nd.dotdot = y then 1 else 0 := if_pos h

theorem Names.lt_of_dir (h : Names n N pend) (hd : (N d).type = some .dir) : d < n :=
  (h.range d (by rw [hd]; exact nofun)).2

theorem Names.ne_zero_of_dir (h : Names n N pend) (hd : (N d).type = some .dir) : d ≠ 0 :=
  ne_of_gt (h.range d (by rw [hd]; exact nofun)).1

/-- A named entry is a link. -/
theorem Names.links_pos_of_entry (h : Names n N pend) (hd : (N d).type = some .dir) {e : Dirent}
    (he : e ∈ (N d).rest) : 0 < links n N e.inum := by
  have hle := le_links (N := N) (y := e.inum) (h.lt_of_dir hd)
  rw [Node.linksTo_dir hd] at hle
  have := namesOf_pos.mpr ⟨e, he, rfl⟩
  omega

/-- The `..` of a directory with links is a link. -/
theorem Names.links_pos_of_up (h : Names n N pend) (hd : (N d).type = some .dir)
    (hl : (N d).nlink ≠ 0) : 0 < links n N (N d).dotdot := by
  have hle := le_links (N := N) (y := (N d).dotdot) (h.lt_of_dir hd)
  rw [Node.linksTo_dir hd, if_pos ⟨hl, rfl⟩] at hle
  omega

theorem Names.alloc_of_links (h : Names n N pend) (hx : x ≠ 0) (hl : 0 < links n N x) :
    (N x).type ≠ none := fun hnone => by
  have := (h.free x (pos_of_ne_zero hx) hnone).1
  omega

theorem Names.nlink_pos_of_links (h : Names n N pend) (hx : x ≠ 0) (hl : 0 < links n N x) :
    0 < (N x).nlink := by
  rw [h.count x (h.alloc_of_links hx hl)]
  omega

/-- A directory with a used named entry has links. -/
theorem Names.live_of_entry (h : Names n N pend) (hd : (N d).type = some .dir) {e : Dirent}
    (he : e ∈ (N d).rest) (hne : e.inum ≠ 0) : (N d).nlink ≠ 0 := fun hz =>
  hne (h.clean d hd hz e he)

end Links

end Xv6
