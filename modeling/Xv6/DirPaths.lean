import Xv6.DirRefs

/-!
# Path lookup

`walk` is what a lookup computes, on the inodes alone. `namex` returns
it, leaves the inodes and the tables of the processes as they are, and
ends with one more reference, to the inode it found: the inodes on the
way are referenced while their entry is read, and none of them is freed
by giving that reference back. Where no `..` dangles, every inode on the
way is allocated, so `ilock` does not panic.
-/

namespace Xv6

open ByteVec (Byte)

variable {np : Nat}

/-! ## Directory functions -/

section Dirs

variable {S : NameSys np} {dp k inum : Nat} {nm : Name}

theorem dirlookup_none (hd : (S.node dp).type = some .dir) (hl : (S.node dp).lookup nm = none) :
    S.dirlookup dp nm = .ok (none, S) := by
  unfold NameSys.dirlookup
  rw [if_neg (not_not_intro hd), hl]

theorem dirlookup_some (hd : (S.node dp).type = some .dir) (hl : (S.node dp).lookup nm = some k) :
    S.dirlookup dp nm
      = .ok (some (k, (S.node dp).inumAt k), S.iget ((S.node dp).inumAt k)) := by
  unfold NameSys.dirlookup
  rw [if_neg (not_not_intro hd), hl]

theorem dirlink_new (hd : (S.node dp).type = some .dir) (hl : (S.node dp).lookup nm = none) :
    S.dirlink dp nm inum
      = .ok (true, S.setNode dp ((S.node dp).link ⟨inum % 2 ^ 16, nm⟩)) := by
  unfold NameSys.dirlink
  rw [dirlookup_none hd hl]
  rfl

theorem dirlink_old (hd : (S.node dp).type = some .dir) (hl : (S.node dp).lookup nm = some k) :
    S.dirlink dp nm inum
      = .ok (false, (S.iget ((S.node dp).inumAt k)).iput ((S.node dp).inumAt k)) := by
  unfold NameSys.dirlink
  rw [dirlookup_some hd hl]
  rfl

/-- An entry that is found names an inode in use, unless it is a `..`
that dangles. -/
theorem Names.found_alloc {n : Nat} {N : Nat → Node} {pend : Nat → Nat} (h : Names n N pend)
    (hup : Up N) (hd : (N dp).type = some .dir) (hl : (N dp).lookup nm = some k) :
    (N ((N dp).inumAt k)).type ≠ none := by
  have hdir : ∀ {i}, (N i).type = some .dir → (N i).type ≠ none := fun hi hnone => by
    rw [hnone] at hi
    cases hi
  rcases (h.dots dp hd).lookup_cases hl with ⟨-, -, hi⟩ | ⟨-, -, hi⟩ | ⟨j, e, -, hget, hne, -, hi⟩
  · rw [hi]
    exact hdir hd
  · rw [hi]
    exact hdir (hup dp hd).1
  · rw [hi]
    exact h.alloc_of_links hne (h.links_pos_of_entry hd (List.mem_of_getElem? hget))

/-- The names of the first two slots are always found. -/
theorem Node.Dots.lookup_none {nd : Node} {d : Nat} (h : nd.Dots d) (hd : d ≠ 0)
    (hl : nd.lookup nm = none) : nm ≠ dotName ∧ nm ≠ dotdotName := by
  have hall := List.findIdx?_eq_none_iff.mp hl
  rw [h.ents] at hall
  constructor
  · rintro rfl
    simp_all
  · rintro rfl
    simp_all [h.up_ne]

end Dirs

/-! ## Lookup -/

/-- What `namexLoop` finds from inode `ip`. -/
def walk (N : Nat → Node) (parent : Bool) : List Name → Nat → Option (Nat × Name)
  | [], ip => if parent then none else some (ip, [])
  | nm :: rest, ip =>
      if (N ip).type ≠ some .dir then none
      else if parent && rest.isEmpty then some (ip, nm)
      else match (N ip).lookup nm with
        | none => none
        | some k => walk N parent rest ((N ip).inumAt k)

/-- What `namex` finds. -/
def NameSys.resolve (S : NameSys np) (p : Fin np) (path : List Byte) (parent : Bool) :
    Option (Nat × Name) :=
  if path.head? = some slash then walk S.node parent (elems path) ROOTINO
  else match S.cwd p with
    | none => none
    | some c => walk S.node parent (elems path) c

/-- The links of ordinary inodes do not matter to a lookup. -/
theorem walk_congr {N N' : Nat → Node} (htype : ∀ i, (N' i).type = (N i).type)
    (hents : ∀ i, (N' i).ents = (N i).ents) (parent : Bool) (names : List Name) :
    ∀ ip, walk N' parent names ip = walk N parent names ip := by
  have hlook : ∀ i nm, (N' i).lookup nm = (N i).lookup nm := fun i nm => by
    rw [Node.lookup, hents, Node.lookup]
  have hat : ∀ i k, (N' i).inumAt k = (N i).inumAt k := fun i k => by
    rw [Node.inumAt, hents, Node.inumAt]
  induction names with
  | nil => exact fun ip => rfl
  | cons nm rest ih =>
    simp [walk, htype, hlook, hat, ih]

theorem walk_parent {N : Nat → Node} {names : List Name} {j : Nat} {nm : Name} :
    ∀ {ip}, walk N true names ip = some (j, nm) → (N j).type = some .dir := by
  induction names with
  | nil =>
    intro ip h
    cases h
  | cons nm' rest ih =>
    grind [walk]

section Lookup

variable {strict : Prop} {l : List Nat} {pend : Nat → Nat}

/-- The references a lookup ends with. -/
def resultRefs : Option (Nat × Name) → List Nat → List Nat
  | none, l => l
  | some (j, _), l => j :: l

/-- What a lookup from state `S` that finds `r` ends with. -/
structure Looked (strict : Prop) (S S' : NameSys np) (l : List Nat) (pend : Nat → Nat)
    (r : Option (Nat × Name)) : Prop where
  inv : Inv strict S' (resultRefs r l) pend
  procs : NameSys.SameProcs S S'
  node : S'.node = S.node
  alloc : strict → ∀ {j nm}, r = some (j, nm) → (S'.node j).type ≠ none

theorem Looked.of_same {S S₁ S' : NameSys np} {r : Option (Nat × Name)}
    (h : Looked strict S₁ S' l pend r) (hp : NameSys.SameProcs S S₁) (hn : S₁.node = S.node) :
    Looked strict S S' l pend r :=
  ⟨h.inv, hp.trans h.procs, h.node.trans hn, h.alloc⟩

theorem namexLoop_spec {parent : Bool} {names : List Name} :
    ∀ {ip : Nat} {S : NameSys np}, Inv strict S (ip :: l) pend → KeptBy S l →
      (strict → (S.node ip).type ≠ none) →
      Ends (fun r => r.1 = walk S.node parent names ip ∧ Looked strict S r.2 l pend r.1)
        (fun e => strict → e ≠ .noType) (NameSys.namexLoop parent names ip S) := by
  induction names with
  | nil =>
    intro ip S h hk ha
    cases parent with
    | true => exact ⟨rfl, h.iput, iput_sameProcs S ip, h.iput_node hk, fun _ _ _ h => by cases h⟩
    | false =>
      refine ⟨rfl, h, .refl S, rfl, fun hs j nm hr => ?_⟩
      grind
  | cons nm rest ih =>
    intro ip S h hk ha
    rw [NameSys.namexLoop, walk]
    refine (h.ilock ha).bind fun S₁ hlock => ?_
    obtain ⟨h₁, hp₁, hn₁, -, -⟩ := hlock
    have hk₁ := hk.of_same hp₁ hn₁
    have hput : Looked strict S (S₁.iput ip) l pend none :=
      ⟨h₁.iput, hp₁.trans (iput_sameProcs S₁ ip), (h₁.iput_node hk₁).trans hn₁,
        fun _ _ _ h => by cases h⟩
    rw [← hn₁] at ha ⊢
    by_cases hd : (S₁.node ip).type = some .dir
    · rw [if_neg (not_not_intro hd), if_neg (not_not_intro hd)]
      split
      · refine ⟨rfl, h₁, hp₁, hn₁, fun hs j nm' hr => ?_⟩
        grind
      · cases hl : (S₁.node ip).lookup nm with
        | none =>
          rw [dirlookup_none hd hl]
          exact ⟨rfl, hput⟩
        | some k =>
          rw [dirlookup_some hd hl]
          have h₂ := (h₁.iget ((S₁.node ip).inumAt k)).perm (.swap ..)
          have hp₂ := iget_sameProcs S₁ ((S₁.node ip).inumAt k)
          have hn₂ := h₂.iput_node ((hk₁.of_same hp₂ rfl).cons _)
          have hp₃ := hp₂.trans (iput_sameProcs _ ip)
          refine (ih h₂.iput (hk₁.of_same hp₃ hn₂) fun hs => ?_).mono fun r hr => ?_
          · rw [hn₂]
            exact h₁.names.found_alloc (h₁.up hs) hd hl
          · rw [hn₂] at hr
            exact ⟨hr.1, hr.2.of_same (hp₁.trans hp₃) (hn₂.trans hn₁)⟩
    · rw [if_pos hd, if_pos hd]
      exact ⟨rfl, hput⟩

/-- **Lookups.** -/
theorem Inv.namex {S : NameSys np} (h : Inv strict S l pend) (p : Fin np) (path : List Byte)
    (parent : Bool) :
    Ends (fun r => r.1 = S.resolve p path parent ∧ Looked strict S r.2 l pend r.1)
      (fun e => strict → e ≠ .noType) (S.namex p path parent) := by
  unfold NameSys.namex NameSys.resolve
  split
  · have hroot : (S.node ROOTINO).type ≠ none := by
      rw [h.names.root]
      exact nofun
    exact (namexLoop_spec (h.iget ROOTINO) (h.keptBy.of_same ⟨rfl, rfl, rfl, rfl⟩ rfl)
      fun _ => hroot).mono fun r hr =>
        ⟨hr.1, hr.2.of_same ⟨rfl, rfl, rfl, rfl⟩ rfl⟩
  · cases hc : S.cwd p with
    | none => exact fun _ => nofun
    | some c =>
      have hpos : 0 < S.holders c :=
        Nat.lt_of_lt_of_le (Tally.tally_pos.mpr ⟨p, hc⟩) (Nat.le_add_right ..)
      have href : 0 < S.ref c := by
        rw [h.refs.ref_eq]
        omega
      exact (namexLoop_spec (h.idup href) (h.keptBy.of_same ⟨rfl, rfl, rfl, rfl⟩ rfl)
        fun _ => h.refs.held c hpos).mono fun r hr =>
          ⟨hr.1, hr.2.of_same ⟨rfl, rfl, rfl, rfl⟩ rfl⟩

theorem resolve_parent {S : NameSys np} {p : Fin np} {path : List Byte} {dp : Nat} {nm : Name}
    (h : S.resolve p path true = some (dp, nm)) : (S.node dp).type = some .dir := by
  unfold NameSys.resolve at h
  split at h
  · exact walk_parent h
  · split at h
    · cases h
    · exact walk_parent h

theorem resolve_congr {S S' : NameSys np} (hp : NameSys.SameProcs S S')
    (htype : ∀ i, (S'.node i).type = (S.node i).type)
    (hents : ∀ i, (S'.node i).ents = (S.node i).ents) (p : Fin np) (path : List Byte)
    (parent : Bool) : S'.resolve p path parent = S.resolve p path parent := by
  unfold NameSys.resolve
  rw [hp.cwd]
  simp only [walk_congr htype hents]

end Lookup

end Xv6
