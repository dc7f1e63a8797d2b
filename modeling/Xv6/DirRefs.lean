import Xv6.DirMoves
import Xv6.Ends

/-!
# References

Between calls the references to an inode are the working directories and
the open files; a running call holds some more (the list `l` below). The
reference count is their number, an inode without links is kept only
while it is referenced, and the last reference frees it. `Inv` joins
this with `Names`; the functions of the inode table keep it, each with
the change to `l` that its callers rely on.
-/

namespace Xv6

open Function Tally List

variable {np : Nat}

namespace NameSys

/-- The inode of a file in use. -/
def fileIp (S : NameSys np) (f : Fin NFILE) : Option Nat :=
  if 0 < (S.file f).ref then (S.file f).ip else none

/-- The number of references processes hold to inode `i`. -/
def holders (S : NameSys np) (i : Nat) : Nat := tally S.cwd i + tally S.fileIp i

/-- The tables of the processes. -/
structure SameProcs (S S' : NameSys np) : Prop where
  ninodes : S'.ninodes = S.ninodes
  cwd : S'.cwd = S.cwd
  ofile : S'.ofile = S.ofile
  file : S'.file = S.file

theorem SameProcs.refl (S : NameSys np) : SameProcs S S := ⟨rfl, rfl, rfl, rfl⟩

theorem SameProcs.trans {S S' S'' : NameSys np} (h : SameProcs S S') (h' : SameProcs S' S'') :
    SameProcs S S'' :=
  ⟨h'.ninodes.trans h.ninodes, h'.cwd.trans h.cwd, h'.ofile.trans h.ofile, h'.file.trans h.file⟩

theorem SameProcs.holders {S S' : NameSys np} (h : SameProcs S S') (i : Nat) :
    S'.holders i = S.holders i := by
  have hip : S'.fileIp = S.fileIp := by
    funext f
    rw [fileIp, h.file, fileIp]
  rw [NameSys.holders, h.cwd, hip, NameSys.holders]

end NameSys

open NameSys

structure Refs (S : NameSys np) (l : List Nat) : Prop where
  ref_eq : ∀ i, S.ref i = S.holders i + l.count i
  held : ∀ i, 0 < S.holders i → (S.node i).type ≠ none
  /-- an inode without links is kept by a reference, and was read -/
  kept : ∀ i, (S.node i).type ≠ none → (S.node i).nlink = 0 → 0 < S.ref i ∧ S.valid i = true
  loaded : ∀ i, 0 < S.ref i → S.valid i = true → (S.node i).type ≠ none
  files : ∀ f, (S.file f).ref = tally S.ofile f

/-- The invariant of a running call that holds the references `l` and
has counted the links `pend` ahead; `strict` adds that no `..`
dangles. -/
structure Inv (strict : Prop) (S : NameSys np) (l : List Nat) (pend : Nat → Nat) : Prop where
  names : Names S.ninodes S.node pend
  refs : Refs S l
  up : strict → Up S.node

section Table

variable {strict : Prop} {S S' : NameSys np} {l l' : List Nat} {pend : Nat → Nat} {i : Nat}

theorem Inv.perm (h : Inv strict S l pend) (hp : l.Perm l') : Inv strict S l' pend :=
  ⟨h.names, ⟨fun i => by rw [h.refs.ref_eq, hp.count_eq], h.refs.held, h.refs.kept, h.refs.loaded,
    h.refs.files⟩, h.up⟩

/-- One more reference. -/
theorem Inv.take (h : Inv strict S l pend) (hp : SameProcs S S') (hnode : S'.node = S.node)
    (href : S'.ref = update S.ref i (S.ref i + 1))
    (hvalid : ∀ j, 0 < S.ref j → S'.valid j = S.valid j)
    (hnew : S.ref i = 0 → S'.valid i = false) : Inv strict S' (i :: l) pend := by
  have hr := h.refs
  have hpos : ∀ j, j ≠ i → S'.ref j = S.ref j := fun j hj => by
    rw [href, update_of_ne hj]
  have hself : S'.ref i = S.ref i + 1 := by rw [href, update_self]
  refine ⟨?_, ⟨fun j => ?_, fun j hj => ?_, fun j ht hz => ?_, fun j hj hv => ?_, fun f => ?_⟩,
    fun hs => ?_⟩
  · rw [hp.ninodes, hnode]
    exact h.names
  · rw [hp.holders]
    by_cases hji : j = i
    · rw [hji, hself, hr.ref_eq, count_cons_self]
      rfl
    · rw [hpos j hji, hr.ref_eq, count_cons_of_ne (Ne.symm hji)]
  · rw [hp.holders] at hj
    rw [hnode]
    exact hr.held j hj
  · rw [hnode] at ht hz
    obtain ⟨h1, h2⟩ := hr.kept j ht hz
    grind
  · rw [hnode]
    by_cases h0 : S.ref j = 0
    · grind
    · have hj0 := Nat.pos_of_ne_zero h0
      rw [hvalid j hj0] at hv
      exact hr.loaded j hj0 hv
  · rw [hp.file, hp.ofile]
    exact hr.files f
  · rw [hnode]
    exact h.up hs

theorem Inv.iget (h : Inv strict S l pend) (i : Nat) : Inv strict (S.iget i) (i :: l) pend := by
  refine h.take ⟨rfl, rfl, rfl, rfl⟩ rfl rfl (fun j hj => ?_) fun h0 => ?_
  · show (if S.ref i = 0 then update S.valid i false else S.valid) j = _
    grind
  · show (if S.ref i = 0 then update S.valid i false else S.valid) i = _
    rw [if_pos h0, update_self]

/-- `idup` of a reference in use. -/
theorem Inv.idup (h : Inv strict S l pend) (hi : 0 < S.ref i) :
    Inv strict (S.idup i) (i :: l) pend :=
  h.take ⟨rfl, rfl, rfl, rfl⟩ rfl rfl (fun _ _ => rfl) fun h0 => by omega

theorem Inv.ref_pos (h : Inv strict S (i :: l) pend) : 0 < S.ref i := by
  rw [h.refs.ref_eq, count_cons_self]
  omega

/-- `ilock` of a reference the call holds: the inode is allocated, and
an allocated one does not panic. -/
theorem Inv.ilock (h : Inv strict S (i :: l) pend) (ha : strict → (S.node i).type ≠ none) :
    Ends (fun S' => Inv strict S' (i :: l) pend ∧ SameProcs S S' ∧ S'.node = S.node
        ∧ (S.node i).type ≠ none ∧ S'.valid i = true)
      (fun e => strict → e ≠ .noType) (S.ilock i) := by
  unfold NameSys.ilock
  by_cases hv : S.valid i = true
  · rw [if_pos hv]
    exact ⟨h, .refl S, rfl, h.refs.loaded i h.ref_pos hv, hv⟩
  · rw [if_neg hv]
    by_cases ht : (S.node i).type = none
    · rw [if_pos ht]
      exact fun hs => absurd ht (ha hs)
    · rw [if_neg ht]
      have hr := h.refs
      refine ⟨⟨h.names, ⟨hr.ref_eq, hr.held, fun j hj hz => ?_, fun j hj hvj => ?_, hr.files⟩,
        h.up⟩, ⟨rfl, rfl, rfl, rfl⟩, rfl, ht, update_self ..⟩
      · refine ⟨(hr.kept j hj hz).1, ?_⟩
        show update S.valid i true j = true
        by_cases hji : j = i
        · rw [hji, update_self]
        · rw [update_of_ne hji]
          exact (hr.kept j hj hz).2
      · have hvj' : update S.valid i true j = true := hvj
        by_cases hji : j = i
        · exact hji ▸ ht
        · rw [update_of_ne hji] at hvj'
          exact hr.loaded j hj hvj'

/-- `iput` that does not free. -/
theorem Inv.release (h : Inv strict S (i :: l) pend)
    (hkeep : ¬(S.ref i = 1 ∧ S.valid i = true ∧ (S.node i).nlink = 0)) :
    Inv strict { S with ref := update S.ref i (S.ref i - 1) } l pend := by
  have hr := h.refs
  have href : ∀ j, update S.ref i (S.ref i - 1) j = S.holders j + l.count j := fun j => by
    have := hr.ref_eq j
    grind
  refine ⟨h.names, ⟨href, hr.held, fun j hj hz => ?_, fun j hj hv => ?_, hr.files⟩, h.up⟩
  · obtain ⟨h1, h2⟩ := hr.kept j hj hz
    grind
  · refine hr.loaded j ?_ hv
    grind

/-- `iput` of the last reference to an inode without links. -/
theorem Inv.free (h : Inv strict S (i :: l) pend) (href : S.ref i = 1) (hv : S.valid i = true)
    (hz : (S.node i).nlink = 0) :
    Inv strict { S with
      node := update S.node i (S.node i).freed
      valid := update S.valid i false
      ref := update S.ref i (S.ref i - 1) } l pend := by
  have hr := h.refs
  have ht := hr.loaded i h.ref_pos hv
  have hcount := hr.ref_eq i
  rw [count_cons_self] at hcount
  have hother : ∀ {j}, j ≠ i → update S.node i (S.node i).freed j = S.node j := fun hj =>
    update_of_ne hj ..
  refine ⟨h.names.freed ht hz, ⟨fun j => ?_, fun j hj => ?_, fun j hj hzj => ?_,
    fun j hj hvj => ?_, hr.files⟩, fun hs => (h.up hs).freed hz⟩
  · show update S.ref i (S.ref i - 1) j = S.holders j + l.count j
    have := hr.ref_eq j
    grind
  · have hj' : 0 < S.holders j := hj
    have hji : j ≠ i := by
      rintro rfl
      omega
    show (update S.node i (S.node i).freed j).type ≠ none
    rw [hother hji]
    exact hr.held j hj'
  · have hji : j ≠ i := by
      rintro rfl
      refine hj ?_
      show (update S.node j (S.node j).freed j).type = none
      rw [update_self]
      rfl
    have hj' : (update S.node i (S.node i).freed j).type ≠ none := hj
    have hz' : (update S.node i (S.node i).freed j).nlink = 0 := hzj
    rw [hother hji] at hj' hz'
    show 0 < update S.ref i (S.ref i - 1) j ∧ update S.valid i false j = true
    rw [update_of_ne hji, update_of_ne hji]
    exact hr.kept j hj' hz'
  · have hvj' : update S.valid i false j = true := hvj
    have hj' : 0 < update S.ref i (S.ref i - 1) j := hj
    have hji : j ≠ i := by grind
    rw [update_of_ne hji] at hvj' hj'
    show (update S.node i (S.node i).freed j).type ≠ none
    rw [hother hji]
    exact hr.loaded j hj' hvj'

theorem iget_sameProcs (S : NameSys np) (i : Nat) : SameProcs S (S.iget i) :=
  ⟨rfl, rfl, rfl, rfl⟩

theorem iput_sameProcs (S : NameSys np) (i : Nat) : SameProcs S (S.iput i) := by
  unfold NameSys.iput
  split
  · exact ⟨rfl, rfl, rfl, rfl⟩
  · exact ⟨rfl, rfl, rfl, rfl⟩

theorem Inv.iput (h : Inv strict S (i :: l) pend) : Inv strict (S.iput i) l pend := by
  unfold NameSys.iput
  split
  · rename_i hc
    exact h.free hc.1 hc.2.1 hc.2.2
  · rename_i hc
    exact h.release hc

/-- An inode with links is not freed. -/
theorem iput_eq (h : (S.node i).nlink ≠ 0) :
    S.iput i = { S with ref := update S.ref i (S.ref i - 1) } :=
  if_neg fun hc => h hc.2.2

/-- Looking at an entry of the table and giving it back frees nothing. -/
theorem iget_iput_node (S : NameSys np) (i : Nat) : ((S.iget i).iput i).node = S.node := by
  unfold NameSys.iput
  split
  · rename_i hc
    obtain ⟨href, hv, -⟩ := hc
    have h0 : S.ref i = 0 := by
      have hself : (S.iget i).ref i = S.ref i + 1 := update_self ..
      omega
    have hinv : (S.iget i).valid i = false := by
      show (if S.ref i = 0 then update S.valid i false else S.valid) i = _
      rw [if_pos h0, update_self]
    rw [hinv] at hv
    cases hv
  · rfl

/-- The references `l` and those of the processes keep every inode
without links. -/
def KeptBy (S : NameSys np) (l : List Nat) : Prop :=
  ∀ i, (S.node i).type ≠ none → (S.node i).nlink = 0 → 0 < S.holders i + l.count i

theorem Inv.keptBy (h : Inv strict S l pend) : KeptBy S l := fun i ht hz => by
  rw [← h.refs.ref_eq]
  exact (h.refs.kept i ht hz).1

theorem KeptBy.of_same (h : KeptBy S l) (hp : SameProcs S S') (hn : S'.node = S.node) :
    KeptBy S' l := fun i ht hz => by
  rw [hp.holders]
  rw [hn] at ht hz
  exact h i ht hz

theorem KeptBy.cons (h : KeptBy S l) (i : Nat) : KeptBy S (i :: l) := fun j ht hz =>
  Nat.lt_of_lt_of_le (h j ht hz) (Nat.add_le_add_left (count_le_count_cons ..) _)

/-- A further reference is given back without freeing. -/
theorem Inv.iput_node (h : Inv strict S (i :: l) pend) (hk : KeptBy S l) :
    (S.iput i).node = S.node := by
  unfold NameSys.iput
  split
  · rename_i hc
    have hkeep := hk i (h.refs.loaded i h.ref_pos hc.2.1) hc.2.2
    have href := h.refs.ref_eq i
    rw [count_cons_self] at href
    omega
  · rfl

/-- A change to entries and counts of allocated inodes; a count may drop
to 0 while the inode is referenced and was read. -/
theorem Inv.relink {pend' : Nat → Nat} (h : Inv strict S l pend) (hp : SameProcs S S')
    (href : S'.ref = S.ref) (hvalid : S'.valid = S.valid)
    (htype : ∀ j, (S'.node j).type = (S.node j).type)
    (hz : ∀ j, (S'.node j).nlink = 0 → (S.node j).nlink = 0 ∨ 0 < S.ref j ∧ S.valid j = true)
    (hnames : Names S.ninodes S'.node pend') (hup : strict → Up S'.node) :
    Inv strict S' l pend' := by
  have hr := h.refs
  refine ⟨hp.ninodes ▸ hnames, ⟨fun j => ?_, fun j hj => ?_, fun j ht hzj => ?_, fun j hj hv => ?_,
    fun f => ?_⟩, hup⟩
  · rw [href, hp.holders]
    exact hr.ref_eq j
  · rw [hp.holders] at hj
    rw [htype]
    exact hr.held j hj
  · rw [htype] at ht
    rw [href, hvalid]
    rcases hz j hzj with h0 | h0
    · exact hr.kept j ht h0
    · exact h0
  · rw [href] at hj
    rw [hvalid] at hv
    rw [htype]
    exact hr.loaded j hj hv
  · rw [hp.file, hp.ofile]
    exact hr.files f

/-- A free inode is claimed with one reference and a link. -/
theorem Inv.claim {pend' : Nat → Nat} (h : Inv strict S l pend) (hfree : (S.node i).type = none)
    (hl : l.count i = 0) (hp : SameProcs S S') (href : S'.ref = update S.ref i 1)
    (hvalid : S'.valid = update S.valid i true)
    (halloc : (S'.node i).type ≠ none) (hlive : (S'.node i).nlink ≠ 0)
    (htype : ∀ j ≠ i, (S'.node j).type = (S.node j).type)
    (hz : ∀ j ≠ i, (S.node j).type ≠ none → (S'.node j).nlink = 0 → (S.node j).nlink = 0)
    (hnames : Names S.ninodes S'.node pend') (hup : strict → Up S'.node) :
    Inv strict S' (i :: l) pend' := by
  have hr := h.refs
  have h0 : S.holders i = 0 := Nat.eq_zero_of_not_pos fun hpos => hr.held i hpos hfree
  refine ⟨hp.ninodes ▸ hnames, ⟨fun j => ?_, fun j hj => ?_, fun j ht hzj => ?_, fun j hj hv => ?_,
    fun f => ?_⟩, hup⟩
  · rw [href, hp.holders]
    by_cases hji : j = i
    · grind
    · rw [update_of_ne hji, count_cons_of_ne (Ne.symm hji)]
      exact hr.ref_eq j
  · rw [hp.holders] at hj
    by_cases hji : j = i
    · rw [hji]
      exact halloc
    · rw [htype j hji]
      exact hr.held j hj
  · have hji : j ≠ i := by
      rintro rfl
      exact hlive hzj
    rw [htype j hji] at ht
    rw [href, hvalid, update_of_ne hji, update_of_ne hji]
    exact hr.kept j ht (hz j hji ht hzj)
  · by_cases hji : j = i
    · rw [hji]
      exact halloc
    · rw [href, update_of_ne hji] at hj
      rw [hvalid, update_of_ne hji] at hv
      rw [htype j hji]
      exact hr.loaded j hj hv
  · rw [hp.file, hp.ofile]
    exact hr.files f

/-- References change hands between the processes and the call. -/
theorem Inv.hand (h : Inv strict S l pend) (hn : S'.ninodes = S.ninodes) (hnode : S'.node = S.node)
    (href : S'.ref = S.ref) (hvalid : S'.valid = S.valid)
    (hcount : ∀ j, S'.holders j + l'.count j = S.holders j + l.count j)
    (hheld : ∀ j, 0 < S'.holders j → 0 < S.holders j ∨ (S.node j).type ≠ none)
    (hfiles : ∀ f, (S'.file f).ref = tally S'.ofile f) : Inv strict S' l' pend := by
  have hr := h.refs
  refine ⟨by rw [hn, hnode]; exact h.names, ⟨fun j => ?_, fun j hj => ?_, ?_, ?_, hfiles⟩,
    hnode ▸ h.up⟩
  · rw [href, hcount]
    exact hr.ref_eq j
  · rw [hnode]
    exact (hheld j hj).elim (hr.held j) id
  · rw [hnode, href, hvalid]
    exact hr.kept
  · rw [hnode, href, hvalid]
    exact hr.loaded

end Table

end Xv6
