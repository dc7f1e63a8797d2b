import Xv6.Tally
import Xv6.DirMap

/-!
# Link counts

The entries of all directories are counted against the link counts: the
entries that name an inode, `.` and `..` apart, and for a directory its
subdirectories, are never more than its `nlink`, as long as no count that
goes up has reached the end of a `short`. So an inode that an entry names
has a link, and `sys_unlink` does not panic.

The calls count a link before they enter it and remove an entry before
its link: `Counted` has the links that are counted ahead as a parameter.
-/

namespace Xv6.Dir

open List Option Ends Nat

open ByteVec (Byte)
open StepSystem Tally
open SlotMap (put find free Unique Vacant)

/-! ## Counting entries -/

/-- An inode as far as links go. -/
structure View where
  type : Nat
  nlink : Nat
  slots : List (Option (Name × Nat))

def View.IsDir (v : View) : Prop := v.type = FileType.dir.code

instance (v : View) : Decidable v.IsDir := inferInstanceAs (Decidable (_ = _))

def View.setLinks (v : View) (m : Nat) : View := ⟨v.type, m, v.slots⟩

def View.setSlots (v : View) (l : List (Option (Name × Nat))) : View := ⟨v.type, v.nlink, l⟩

/-- Not `.` or `..`. -/
def plainName (nm : Name) : Prop := nm ≠ dotName ∧ nm ≠ dotdotName

instance (nm : Name) : Decidable (plainName nm) := inferInstanceAs (Decidable (_ ∧ _))

/-- The slot has an entry for an inode with `p`, not `.` or `..`. -/
def counts (p : Nat → Prop) [DecidablePred p] (s : Option (Name × Nat)) : Bool :=
  s.any fun y => plainName y.1 ∧ p y.2

def countOf (p : Nat → Prop) [DecidablePred p] (l : List (Option (Name × Nat))) : Nat :=
  l.countP (counts p)

/-- The entries of one directory that name inode `x`. -/
def View.names (v : View) (x : Nat) : Nat := if v.IsDir then countOf (· = x) v.slots else 0

/-- The entries that name inode `x`. -/
def entries (n : Nat) (V : Nat → View) (x : Nat) : Nat := ∑ d ∈ Finset.range n, (V d).names x

/-- The entries of one directory that name directories. -/
def View.children (V : Nat → View) (v : View) : Nat :=
  if v.IsDir then countOf (fun y => (V y).IsDir) v.slots else 0

/-- Links cover the entries, with `ahead x` links of `x` more, and each
count is below `bound`. -/
structure Counted (bound n : Nat) (V : Nat → View) (ahead : Nat → Nat) : Prop where
  cap : 1 < bound ∧ bound ≤ 2 ^ 16
  covered : ∀ x < n, (V x).type ≠ 0 → entries n V x + (V x).children V + ahead x ≤ (V x).nlink
  short : ∀ x < n, (V x).type ≠ 0 → (V x).nlink < bound
  free : ∀ x < n, (V x).type = 0 → entries n V x = 0
  range : ∀ d < n, (V d).IsDir → ∀ nm y, some (nm, y) ∈ (V d).slots → plainName nm → y < n

/-- One inode has changed. -/
def Alters (n : Nat) (V V' : Nat → View) (i : Nat) (v : View) : Prop :=
  ∀ j < n, V' j = if j = i then v else V j

variable {nm : Name} {s : Option (Name × Nat)} {k d inum dp : Nat} {name : List Byte} {ip : Inode}
  {r : Bool}

section Count

variable {p q : Nat → Prop} [DecidablePred p] [DecidablePred q] {l : List (Option (Name × Nat))}

theorem counts_some {y : Nat} : counts p (some (nm, y)) = true ↔ plainName nm ∧ p y := by
  simp [counts]

theorem counts_none : counts p none = false := rfl

theorem counts_iff : counts p s = true ↔ ∃ nm y, s = some (nm, y) ∧ plainName nm ∧ p y := by
  rcases s with _ | ⟨nm, y⟩
  · simp [counts]
  · simp [counts_some]

theorem countOf_mono (h : ∀ nm y, some (nm, y) ∈ l → plainName nm → p y → q y) :
    countOf p l ≤ countOf q l := by
  refine countP_mono_left fun s hs hp => ?_
  obtain ⟨nm, y, rfl, hnm, hy⟩ := counts_iff.mp hp
  exact counts_some.mpr ⟨hnm, h nm y hs hnm hy⟩

theorem countOf_congr (h : ∀ nm y, some (nm, y) ∈ l → plainName nm → (p y ↔ q y)) :
    countOf p l = countOf q l :=
  le_antisymm (countOf_mono fun nm y hs hnm => (h nm y hs hnm).mp)
    (countOf_mono fun nm y hs hnm => (h nm y hs hnm).mpr)

theorem countOf_put (k : Nat) (s : Option (Name × Nat)) :
    countOf p (put l k s) + (if counts p l[k]?.join then 1 else 0)
      = countOf p l + if counts p s then 1 else 0 := by
  unfold countOf put
  rcases lt_or_ge k l.length with hlt | hge
  · grind
  · rw [if_neg (not_lt.mpr hge), getElem?_eq_none hge, countP_append, countP_singleton]
    rfl

theorem countOf_pos {y : Nat} (hs : some (nm, y) ∈ l) (hnm : plainName nm) (hp : p y) :
    0 < countOf p l :=
  countP_pos_iff.mpr ⟨_, hs, counts_some.mpr ⟨hnm, hp⟩⟩

end Count

theorem mem_put {α : Type} {l : List α} {a x : α} (h : x ∈ put l k a) : x = a ∨ x ∈ l := by
  unfold put at h
  grind

theorem View.names_dir {v : View} (h : v.IsDir) (x : Nat) : v.names x = countOf (· = x) v.slots := if_pos h

theorem View.children_dir {v : View} (h : v.IsDir) (V : Nat → View) :
    v.children V = countOf (fun y => (V y).IsDir) v.slots := if_pos h

section Moves

variable {bound n i : Nat} {V V' : Nat → View} {v : View} {ahead ahead' : Nat → Nat}

theorem Alters.self (h : Alters n V V' i v) (hi : i < n) : V' i = v := by rw [h i hi, if_pos rfl]

theorem Alters.other (h : Alters n V V' i v) {j : Nat} (hj : j < n) (hji : j ≠ i) : V' j = V j := by
  rw [h j hj, if_neg hji]

theorem Alters.entries (h : Alters n V V' i v) (hi : i < n) (x : Nat) :
    entries n V' x + (V i).names x = entries n V x + v.names x := by
  have hoff := sum_off (s := Finset.range n) (f := fun d => (V d).names x)
    (g := fun d => (if d = i then v else V d).names x) (Finset.mem_range.mpr hi)
    fun j hj => by rw [if_neg hj]
  rw [if_pos rfl] at hoff
  have hsum : Dir.entries n V' x = ∑ d ∈ Finset.range n, (if d = i then v else V d).names x :=
    Finset.sum_congr rfl fun d hd => by rw [h d (Finset.mem_range.mp hd)]
  rw [hsum]
  exact hoff

/-- No entry names an inode without entries. -/
theorem not_named {x : Nat} (h0 : entries n V x = 0) (hd : d < n) (hdir : (V d).IsDir)
    (hs : some (nm, x) ∈ (V d).slots) : ¬plainName nm := fun hnm => by
  have hle : (V d).names x ≤ entries n V x :=
    Finset.single_le_sum (f := fun d => (V d).names x) (fun _ _ => zero_le _)
      (Finset.mem_range.mpr hd)
  have hpos := countOf_pos (p := (· = x)) hs hnm rfl
  rw [View.names, if_pos hdir] at hle
  omega

theorem View.children_mono {V V' : Nat → View} {v : View}
    (h : v.IsDir → ∀ nm y, some (nm, y) ∈ v.slots → plainName nm → (V' y).IsDir → (V y).IsDir) :
    v.children V' ≤ v.children V := by
  unfold View.children
  split
  · rename_i hdir
    exact countOf_mono (h hdir)
  · exact le_refl 0

/-- Only the types of the inodes that are named matter. -/
theorem Counted.children_congr (hc : Counted bound n V ahead) (hd : d < n)
    (htype : ∀ j < n, (V' j).type = (V j).type) : (V d).children V' = (V d).children V := by
  have hsame (hdir : (V d).IsDir) (nm : Name) (y : Nat) (hs : some (nm, y) ∈ (V d).slots)
      (hnm : plainName nm) : (V' y).IsDir ↔ (V y).IsDir := by
    rw [View.IsDir, htype y (hc.range d hd hdir nm y hs hnm), View.IsDir]
  exact le_antisymm (View.children_mono fun hdir nm y hs hnm => (hsame hdir nm y hs hnm).mp)
    (View.children_mono fun hdir nm y hs hnm => (hsame hdir nm y hs hnm).mpr)

theorem Alters.type (h : Alters n V V' i v) (ht : v.type = (V i).type) : ∀ j < n, (V' j).type = (V j).type := by
  intro j hj
  rw [h j hj]
  grind

/-- `ip->nlink` is set to `m`. -/
theorem Counted.relink {m : Nat} (hc : Counted bound n V ahead) (hi : i < n)
    (h : Alters n V V' i ((V i).setLinks m)) (hm : m < bound)
    (hself : ahead' i + (V i).nlink ≤ ahead i + m) (hle : ∀ x ≠ i, ahead' x ≤ ahead x) :
    Counted bound n V' ahead' := by
  have hent : ∀ x, entries n V' x = entries n V x := fun x => add_right_cancel (h.entries hi x)
  have htype := h.type rfl
  refine ⟨hc.cap, fun x hx ht => ?_, fun x hx ht => ?_, fun x hx ht => ?_, fun d hd hdir => ?_⟩
  · rw [htype x hx] at ht
    have hcov := hc.covered x hx ht
    rw [← hent, ← hc.children_congr hx htype] at hcov
    rcases eq_or_ne x i with rfl | hxi
    · rw [h.self hx]
      show _ + (V x).children V' + _ ≤ m
      omega
    · rw [h.other hx hxi]
      have := hle x hxi
      omega
  · rw [htype x hx] at ht
    rcases eq_or_ne x i with rfl | hxi
    · rw [h.self hx]
      exact hm
    · rw [h.other hx hxi]
      exact hc.short x hx ht
  · rw [htype x hx] at ht
    rw [hent]
    exact hc.free x hx ht
  · have hslots : (V' d).slots = (V d).slots ∧ ((V d).IsDir) := by
      rcases eq_or_ne d i with rfl | hdi
      · rw [h.self hd] at hdir ⊢
        exact ⟨rfl, hdir⟩
      · simp_all [h.other hd hdi]
    rw [hslots.1]
    exact hc.range d hd hslots.2

/-- Slot `k` of the directory `i` is written: what it had is no longer
named, and what is put there is. -/
theorem Counted.write {k : Nat} {s : Option (Name × Nat)} (hc : Counted bound n V ahead) (hi : i < n)
    (hdir : (V i).IsDir) (h : Alters n V V' i ((V i).setSlots (put (V i).slots k s)))
    (hrange : ∀ nm y, s = some (nm, y) → plainName nm → y < n ∧ (V y).type ≠ 0)
    (hahead : ∀ x < n, ahead' x + (if counts (· = x) s then 1 else 0)
        + (if x = i ∧ counts (fun y => (V y).IsDir) s then 1 else 0)
      ≤ ahead x + (if counts (· = x) (V i).slots[k]?.join then 1 else 0)
        + if x = i ∧ counts (fun y => (V y).IsDir) (V i).slots[k]?.join then 1 else 0) :
    Counted bound n V' ahead' := by
  have htype := h.type rfl
  have hnew : ((V i).setSlots (put (V i).slots k s)).IsDir := hdir
  have hent : ∀ x, entries n V' x + (if counts (· = x) (V i).slots[k]?.join then 1 else 0)
      = entries n V x + if counts (· = x) s then 1 else 0 := fun x => by
    have hoff := h.entries hi x
    have hput := countOf_put (p := (· = x)) (l := (V i).slots) k s
    rw [View.names_dir hdir, View.names_dir hnew] at hoff
    change _ + countOf _ (V i).slots = _ + countOf _ (put (V i).slots k s) at hoff
    omega
  have hchild : ((V i).setSlots (put (V i).slots k s)).children V'
      + (if counts (fun y => (V y).IsDir) (V i).slots[k]?.join then 1 else 0)
      = (V i).children V + if counts (fun y => (V y).IsDir) s then 1 else 0 := by
    have hput := countOf_put (p := fun y => (V y).IsDir) (l := (V i).slots) k s
    have hsame : countOf (fun y => (V' y).IsDir) (put (V i).slots k s)
        = countOf (fun y => (V y).IsDir) (put (V i).slots k s) := by
      refine countOf_congr fun nm y hs hnm => ?_
      have hy : y < n := by
        rcases mem_put hs with rfl | hs
        · exact (hrange nm y rfl hnm).1
        · exact hc.range i hi hdir nm y hs hnm
      rw [View.IsDir, htype y hy, View.IsDir]
    rw [View.children_dir hdir, View.children_dir hnew]
    change countOf (fun y => (V' y).IsDir) (put (V i).slots k s) + _ = _
    omega
  refine ⟨hc.cap, fun x hx ht => ?_, fun x hx ht => ?_, fun x hx ht => ?_, fun d hd hdir' nm y hs hnm => ?_⟩
  · rw [htype x hx] at ht
    have hcov := hc.covered x hx ht
    have ha := hahead x hx
    have he := hent x
    rcases eq_or_ne x i with rfl | hxi
    · rw [h.self hx]
      simp only [true_and] at ha
      show _ + View.children V' _ + _ ≤ (V x).nlink
      omega
    · rw [h.other hx hxi, hc.children_congr hx htype]
      grind
  · rw [htype x hx] at ht
    rcases eq_or_ne x i with rfl | hxi
    · rw [h.self hx]
      exact hc.short x hx ht
    · rw [h.other hx hxi]
      exact hc.short x hx ht
  · rw [htype x hx] at ht
    have he := hent x
    have hno : ¬counts (· = x) s = true := fun hcount => by
      obtain ⟨nm, y, hs, hnm, rfl⟩ := counts_iff.mp hcount
      exact (hrange nm y hs hnm).2 ht
    rw [if_neg hno, hc.free x hx ht] at he
    omega
  · rcases eq_or_ne d i with rfl | hdi
    · rw [h.self hd] at hs
      rcases mem_put hs with rfl | hs
      · exact (hrange nm y rfl hnm).1
      · exact hc.range d hd hdir nm y hs hnm
    · rw [h.other hd hdi] at hs hdir'
      exact hc.range d hd hdir' nm y hs hnm

/-- A free inode is claimed with one link. -/
theorem Counted.claim {type : Nat} (hc : Counted bound n V ahead) (hi : i < n) (hfree : (V i).type = 0)
    (h : Alters n V V' i ⟨type, 1, []⟩) (hself : ahead' i ≤ 1) (hle : ∀ x ≠ i, ahead' x ≤ ahead x) :
    Counted bound n V' ahead' := by
  have h0 := hc.free i hi hfree
  have hold : ¬(V i).IsDir := by
    rw [View.IsDir, hfree]
    decide
  have hent : ∀ x, entries n V' x = entries n V x := fun x => by
    have hoff := h.entries hi x
    have hnil : (⟨type, 1, []⟩ : View).names x = 0 := by
      unfold View.names
      split
      · rfl
      · rfl
    rw [View.names, if_neg hold, hnil] at hoff
    exact hoff
  have hkept : ∀ d < n, d ≠ i → (V d).children V' ≤ (V d).children V := fun d hd hdi =>
    View.children_mono fun hdir nm y hs hnm hy => by
      have hyi : y ≠ i := by
        rintro rfl
        exact not_named h0 hd hdir hs hnm
      rwa [h.other (hc.range d hd hdir nm y hs hnm) hyi] at hy
  refine ⟨hc.cap, fun x hx ht => ?_, fun x hx ht => ?_, fun x hx ht => ?_, fun d hd hdir nm y hs hnm => ?_⟩
  · rw [hent]
    rcases eq_or_ne x i with rfl | hxi
    · have hnil : (⟨type, 1, []⟩ : View).children V' = 0 := by
        unfold View.children
        split
        · rfl
        · rfl
      rw [h.self hx, h0, hnil]
      simpa using hself
    · rw [h.other hx hxi] at ht ⊢
      have hcov := hc.covered x hx ht
      grind
  · rcases eq_or_ne x i with rfl | hxi
    · rw [h.self hx]
      exact hc.cap.1
    · rw [h.other hx hxi] at ht ⊢
      exact hc.short x hx ht
  · rw [hent]
    rcases eq_or_ne x i with rfl | hxi
    · exact h0
    · rw [h.other hx hxi] at ht
      exact hc.free x hx ht
  · rcases eq_or_ne d i with rfl | hdi
    · rw [h.self hd] at hs
      cases hs
    · rw [h.other hd hdi] at hs hdir
      exact hc.range d hd hdir nm y hs hnm

/-- An inode without links is freed. -/
theorem Counted.drop (hc : Counted bound n V ahead) (hi : i < n) (hz : (V i).nlink = 0)
    (ht : (V i).type ≠ 0) (h : Alters n V V' i v) (hv : v.type = 0) (hle : ∀ x ≠ i, ahead' x ≤ ahead x) :
    Counted bound n V' ahead' := by
  have hnew : ¬v.IsDir := by
    rw [View.IsDir, hv]
    decide
  have hent : ∀ x, entries n V' x ≤ entries n V x := fun x => by
    have hoff := h.entries hi x
    have hv0 : v.names x = 0 := if_neg hnew
    omega
  have hkept : ∀ d < n, (V d).children V' ≤ (V d).children V := fun d hd =>
    View.children_mono fun hdir nm y hs hnm hy => by
      rcases eq_or_ne y i with rfl | hyi
      · rw [h.self hi] at hy
        exact absurd hy hnew
      · rwa [h.other (hc.range d hd hdir nm y hs hnm) hyi] at hy
  refine ⟨hc.cap, fun x hx htx => ?_, fun x hx htx => ?_, fun x hx htx => ?_, fun d hd hdir nm y hs hnm => ?_⟩
  · have hxi : x ≠ i := by
      rintro rfl
      rw [h.self hx] at htx
      exact htx hv
    rw [h.other hx hxi] at htx ⊢
    have hcov := hc.covered x hx htx
    grind
  · have hxi : x ≠ i := by
      rintro rfl
      rw [h.self hx] at htx
      exact htx hv
    rw [h.other hx hxi] at htx ⊢
    exact hc.short x hx htx
  · have he := hent x
    rcases eq_or_ne x i with rfl | hxi
    · have hcov := hc.covered x hx ht
      omega
    · rw [h.other hx hxi] at htx
      have h0 := hc.free x hx htx
      omega
  · have hdi : d ≠ i := by
      rintro rfl
      rw [h.self hd] at hdir
      exact hnew hdir
    rw [h.other hd hdi] at hs hdir
    exact hc.range d hd hdir nm y hs hnm

end Moves

/-! ## The inodes of a file system -/

/-- Inode `i` on the disk. -/
def view (sb : Superblock) (st : FsState) (i : Nat) : View where
  type := (sb.dinode st.data i).type
  nlink := (sb.dinode st.data i).nlink
  slots := if (sb.dinode st.data i).type = FileType.dir.code then slotsOf sb st i else []

/-- A consistent file system whose directories are maps and whose links
cover the entries. -/
structure Tree (bound : Nat) (sb : Superblock) (st : FsState) (ahead : Nat → Nat) : Prop where
  consistent : Consistent sb st.data
  maps : ∀ d < sb.ninodes, (sb.dinode st.data d).type = FileType.dir.code → IsMap sb st d
  counted : Counted bound sb.ninodes (view sb st) ahead

section Tree

variable {bound : Nat} {sb : Superblock} {st st' : FsState} {i : Nat} {ahead ahead' : Nat → Nat}

theorem view_slots (h : (sb.dinode st.data i).type = FileType.dir.code) :
    (view sb st i).slots = slotsOf sb st i := if_pos h

theorem Touches.alters (h : Touches sb st i st') :
    Alters sb.ninodes (view sb st) (view sb st') i (view sb st' i) := by
  intro j hj
  split
  · rename_i hji
    rw [hji]
  · rename_i hji
    unfold view
    rw [h.others j hj hji]
    refine congrArg (View.mk _ _) ?_
    split
    · rename_i hdir
      have ht : (sb.dinode st.data j).type ≠ 0 := by
        rw [hdir]
        decide
      rw [slotsOf, h.contents j hj hji ht, slotsOf]
    · rfl

/-- The other directories stay maps. -/
theorem Touches.isMap (h : Touches sb st i st') (hd : d < sb.ninodes) (hne : d ≠ i)
    (hmap : (sb.dinode st.data d).type = FileType.dir.code → IsMap sb st d)
    (hdir : (sb.dinode st'.data d).type = FileType.dir.code) : IsMap sb st' d := by
  have hsame := h.others d hd hne
  have hold := hmap (hsame ▸ hdir)
  exact (DirStep.other h.consistent (by rw [hsame]) (h.contents d hd hne hold.type_ne)).isMap hold

theorem Tree.touch (h : Tree bound sb st ahead) (ht : Touches sb st i st')
    (hmap : (sb.dinode st'.data i).type = FileType.dir.code → IsMap sb st' i)
    (hc : Counted bound sb.ninodes (view sb st') ahead') : Tree bound sb st' ahead' := by
  refine ⟨ht.consistent, fun d hd hdir => ?_, hc⟩
  rcases eq_or_ne d i with rfl | hdi
  · exact hmap hdir
  · exact ht.isMap hd hdi (h.maps d hd) hdir

/-- The counts of a directory do not matter to its content. -/
theorem content_addLinks (h : Consistent sb st.data) (hi : i < sb.ninodes)
    (ht : (sb.dinode st.data i).type ≠ 0) (delta : Int) :
    content sb (iupdate sb st i (addLinks (sb.dinode st.data i) delta)).data i = content sb st.data i := by
  have hl := h.owned.locked hi ht
  have hu : Updated sb st.data (iupdate sb st i (addLinks (sb.dinode st.data i) delta)).data i
      (addLinks (sb.dinode st.data i) delta) := iupdate_spec (addLinks_fits (sb.dinode_fits st.data i) delta) hi
  have hself := hu.inodes i
  rw [if_pos rfl] at hself
  unfold content
  rw [hself]
  refine map_congr_left fun k _ => fileByte_congr ?_ fun hne => hu.frame _ (hl.isUsed hne).1
  exact slotVal_congr rfl fun hne => hu.frame _ (hl.indBlock hne).1

/-- A change of `nlink` alone. -/
theorem Tree.relinked (h : Tree bound sb st ahead) (hi : i < sb.ninodes) (htouch : Touches sb st i st')
    (htype : (sb.dinode st'.data i).type = (sb.dinode st.data i).type)
    (hcontent : content sb st'.data i = content sb st.data i)
    (hshort : (sb.dinode st'.data i).nlink < bound)
    (hself : ahead' i + (sb.dinode st.data i).nlink ≤ ahead i + (sb.dinode st'.data i).nlink)
    (hle : ∀ x ≠ i, ahead' x ≤ ahead x) : Tree bound sb st' ahead' := by
  refine h.touch htouch (fun hdir => ?_) ?_
  · exact (DirStep.other htouch.consistent htype hcontent).isMap (h.maps i hi (htype ▸ hdir))
  · have hview : view sb st' i = (view sb st i).setLinks (sb.dinode st'.data i).nlink := by
      unfold view View.setLinks
      rw [htype, slotsOf, hcontent, slotsOf]
    exact h.counted.relink hi (hview ▸ htouch.alters) hshort hself hle

/-- `iupdate` after a change of `nlink`. -/
theorem Tree.relink (h : Tree bound sb st ahead) (hi : i < sb.ninodes) (ht : (sb.dinode st.data i).type ≠ 0)
    {delta : Int} {m : Nat} (hm : (addLinks (sb.dinode st.data i) delta).nlink = m) (hshort : m < bound)
    (hself : ahead' i + (sb.dinode st.data i).nlink ≤ ahead i + m)
    (hle : ∀ x ≠ i, ahead' x ≤ ahead x) :
    Tree bound sb (iupdate sb st i (addLinks (sb.dinode st.data i) delta)) ahead' := by
  have hstep := step_addLinks h.consistent hi ht delta
  have hcontent := content_addLinks h.consistent hi ht delta
  rw [hstep.inode] at hm
  exact h.relinked hi hstep.toTouches (hstep.inode ▸ hstep.type) hcontent (hm ▸ hshort) (hm ▸ hself) hle

/-- A slot of a directory is written. -/
theorem Tree.write {k : Nat} {s : Option (Name × Nat)} (h : Tree bound sb st ahead) (hmap : IsMap sb st i)
    (hmap' : IsMap sb st' i) (hw : SlotWritten sb st i k s st')
    (hrange : ∀ nm y, s = some (nm, y) → plainName nm → y < sb.ninodes ∧ (sb.dinode st.data y).type ≠ 0)
    (hahead : ∀ x < sb.ninodes, ahead' x + (if counts (· = x) s then 1 else 0)
        + (if x = i ∧ counts (fun y => (view sb st y).IsDir) s then 1 else 0)
      ≤ ahead x + (if counts (· = x) (slotsOf sb st i)[k]?.join then 1 else 0)
        + if x = i ∧ counts (fun y => (view sb st y).IsDir) (slotsOf sb st i)[k]?.join then 1 else 0) :
    Tree bound sb st' ahead' := by
  refine h.touch hw.touches (fun _ => hmap') ?_
  have hview : view sb st' i = (view sb st i).setSlots (put (view sb st i).slots k s) := by
    unfold View.setSlots
    rw [view_slots hmap.type, ← hw.slots, ← view_slots hmap'.type]
    unfold view
    rw [hw.nlink, hmap.type, hmap'.type]
  rw [← view_slots hmap.type] at hahead
  exact h.counted.write hmap.lt hmap.type (hview ▸ hw.touches.alters) hrange hahead

/-- A new name for the inode `inum`. -/
theorem Tree.enter {name : List Byte} {inum : Nat} (h : Tree bound sb st ahead) (hmap : IsMap sb st i)
    (hfits : sb.ninodes ≤ 2 ^ 16) (hi : inum < sb.ninodes)
    (ht : (sb.dinode st.data inum).type ≠ 0) (hfind : find (slotsOf sb st i) (cname name) = none)
    (hw : SlotWritten sb st i (free (slotsOf sb st i)) (slot (deBytes inum name)) st')
    (hahead : ∀ x < sb.ninodes, ahead' x + (if plainName (cname name) ∧ inum = x then 1 else 0)
        + (if x = i ∧ plainName (cname name) ∧ (sb.dinode st.data inum).type = FileType.dir.code then 1 else 0)
      ≤ ahead x) : Tree bound sb st' ahead' := by
  have hvac := (SlotMap.vacant_free (slotsOf sb st i)).2
  have hmap' := hmap.link hfind hw
  rw [slot_deBytes, mod_eq_of_lt (by omega)] at hw
  split at hw
  · -- an entry for inode 0 is a free slot
    refine h.write hmap hmap' hw (fun nm y hs _ => by cases hs) fun x hx => ?_
    grind
  · refine h.write hmap hmap' hw (fun nm y hs _ => ?_) fun x hx => ?_
    · grind
    · rw [hvac]
      simp only [counts_some, counts_none, Bool.false_eq_true, and_false, if_false, add_zero]
      exact hahead x hx

/-- The entry that was found is cleared. -/
theorem Tree.clear {name : List Byte} {inum k : Nat} (h : Tree bound sb st ahead) (hmap : IsMap sb st i)
    (hplain : plainName (cname name)) (hk : find (slotsOf sb st i) (cname name) = some (k, inum))
    (hmap' : IsMap sb st' i) (hw : SlotWritten sb st i k none st')
    (hahead : ∀ x < sb.ninodes, ahead' x ≤ ahead x + (if inum = x then 1 else 0)
      + if x = i ∧ (sb.dinode st.data inum).type = FileType.dir.code then 1 else 0) : Tree bound sb st' ahead' := by
  have hslot := SlotMap.find_some hk
  refine h.write hmap hmap' hw (fun nm y hs _ => by cases hs) fun x hx => ?_
  rw [hslot]
  simp only [counts_none, Bool.false_eq_true, and_false, if_false, add_zero, join_some, counts_some,
    hplain, true_and]
  exact hahead x hx

/-! ## `sys_link` -/

/-- One link of `i` is counted ahead. -/
def aheadOne (i : Nat) (x : Nat) : Nat := if x = i then 1 else 0

theorem aheadOne_self (i : Nat) : aheadOne i i = 1 := if_pos rfl

theorem aheadOne_of_ne {x : Nat} (h : x ≠ i) : aheadOne i x = 0 := if_neg h

theorem addLinks_one (h : ip.nlink + 1 < 2 ^ 16) : (addLinks ip 1).nlink = ip.nlink + 1 := by
  show (((ip.nlink : Int) + 1) % 2 ^ 16).toNat % 2 ^ 16 = _
  omega

theorem addLinks_neg (hpos : 0 < ip.nlink) (h : ip.nlink < 2 ^ 16) :
    (addLinks ip (-1)).nlink = ip.nlink - 1 := by
  show (((ip.nlink : Int) + -1) % 2 ^ 16).toNat % 2 ^ 16 = _
  omega

theorem addLinks_undo (h : ip.nlink < 2 ^ 16) :
    (addLinks (addLinks ip 1) (-1)).nlink = ip.nlink := by
  have hone : (addLinks ip 1).nlink = (((ip.nlink : Int) + 1) % 2 ^ 16).toNat % 2 ^ 16 := rfl
  show ((((addLinks ip 1).nlink : Int) + -1) % 2 ^ 16).toNat % 2 ^ 16 = _
  omega

/-- `ip->nlink++`, where it stays a `short`. -/
theorem Tree.up (h : Tree bound sb st ahead) (hi : i < sb.ninodes) (ht : (sb.dinode st.data i).type ≠ 0)
    (hbelow : (sb.dinode st.data i).nlink + 1 < bound) :
    Tree bound sb (iupdate sb st i (addLinks (sb.dinode st.data i) 1)) fun x => ahead x + aheadOne i x := by
  have hcap := h.counted.cap.2
  refine h.relink hi ht (addLinks_one (by omega)) hbelow ?_ fun x hx => ?_
  · rw [aheadOne_self]
    omega
  · rw [aheadOne_of_ne hx]
    exact le_refl _

/-- `ip->nlink--` of a link that is counted ahead. -/
theorem Tree.down (h : Tree bound sb st fun x => ahead x + aheadOne i x) (hi : i < sb.ninodes)
    (ht : (sb.dinode st.data i).type ≠ 0) :
    Tree bound sb (iupdate sb st i (addLinks (sb.dinode st.data i) (-1))) ahead := by
  have hcov : _ ≤ (sb.dinode st.data i).nlink := h.counted.covered i hi ht
  have hshort : (sb.dinode st.data i).nlink < bound := h.counted.short i hi ht
  have hcap := h.counted.cap.2
  simp only [aheadOne_self] at hcov
  refine h.relink hi ht (addLinks_neg (by omega) (by omega)) (by omega) ?_ fun x _ => Nat.le_add_right ..
  simp only [aheadOne_self]
  omega

/-- What `dirlink` can do. -/
theorem dirlink_cases {ok : Bool} {ip' : Inode}
    (h : (sb.dinode st.data dp).type = FileType.dir.code → IsMap sb st dp)
    (hr : dirlink sb st dp (sb.dinode st.data dp) name inum = .ok (ok, ip', st')) :
    IsMap sb st dp ∧ (ok = false ∧ ip' = sb.dinode st.data dp ∧ st' = st
      ∨ ok = true ∧ ip' = sb.dinode st'.data dp ∧ find (slotsOf sb st dp) (cname name) = none
        ∧ IsMap sb st' dp
        ∧ SlotWritten sb st dp (free (slotsOf sb st dp)) (slot (deBytes inum name)) st') := by
  by_cases hdir : (sb.dinode st.data dp).type = FileType.dir.code
  · have hmap := h hdir
    refine ⟨hmap, ?_⟩
    cases ok with
    | true =>
      obtain ⟨hfind, -, hmap', hw⟩ := hmap.dirlink_true hr
      exact .inr ⟨rfl, (step_dirlink hmap.consistent hmap.lt hmap.type_ne hr).inode, hfind, hmap', hw⟩
    | false =>
      cases hfind : find (slotsOf sb st dp) (cname name) with
      | some x =>
        grind [hmap.dirlink_present hfind]
      | none =>
        rw [hmap.dirlink_absent hfind] at hr
        obtain ⟨⟨r, ip₁, st₁⟩, -, hr⟩ := bind_ok hr
        grind
  · rw [dirlink, dirlookup, if_pos hdir] at hr
    cases hr

/-- `ip->nlink++` and then, at the label `bad`, `ip->nlink--`. -/
theorem Tree.undo (h : Tree bound sb st ahead) (hi : i < sb.ninodes) (ht : (sb.dinode st.data i).type ≠ 0)
    (hst : st' = iupdate sb st i (addLinks (sb.dinode st.data i) 1)) :
    Tree bound sb (iupdate sb st' i (addLinks (sb.dinode st'.data i) (-1))) ahead := by
  have hshort : (sb.dinode st.data i).nlink < bound := h.counted.short i hi ht
  have hcap := h.counted.cap.2
  have h₁ := step_addLinks h.consistent hi ht 1
  have hc₁ := content_addLinks h.consistent hi ht 1
  rw [← hst] at h₁ hc₁
  have ht₁ := h₁.type_ne ht
  have h₂ := step_addLinks h₁.consistent hi ht₁ (-1)
  have hc₂ := content_addLinks h₁.consistent hi ht₁ (-1)
  have hsame : (sb.dinode (iupdate sb st' i (addLinks (sb.dinode st'.data i) (-1))).data i).nlink
      = (sb.dinode st.data i).nlink := by
    rw [← h₂.inode, ← h₁.inode]
    exact addLinks_undo (by omega)
  have h₃ := h₁.trans h₂
  refine h.relinked hi h₃.toTouches (h₃.inode ▸ h₃.type) (hc₂.trans hc₁) ?_ ?_ fun x _ => le_refl _
  · rw [hsame]
    exact hshort
  · rw [hsame]

theorem Tree.link {dp : Option Nat} (h : Tree bound sb st fun _ => 0) (hfits : sb.ninodes ≤ 2 ^ 16)
    (hi : inum < sb.ninodes) (hdp : ∀ d ∈ dp, d < sb.ninodes)
    (hbelow : r = true → (sb.dinode st.data inum).nlink + 1 < bound)
    (hr : link sb st inum dp name = .ok (r, st')) :
    Tree bound sb st' (fun _ => 0)
      ∧ (r = true → (sb.dinode st'.data inum).nlink = (sb.dinode st.data inum).nlink + 1) := by
  obtain ⟨ip, hl, hr⟩ := bind_ok hr
  obtain ⟨rfl, ht⟩ := ilock_ok (mapError_ok hl)
  dsimp only at hr
  split at hr
  · grind
  rename_i hplain
  have hstep := step_addLinks h.consistent hi ht 1
  generalize hst : iupdate sb st inum (addLinks (sb.dinode st.data inum) 1) = st₁ at hr hstep
  have ht₁ : (sb.dinode st₁.data inum).type = (sb.dinode st.data inum).type := hstep.inode ▸ hstep.type
  have hmaps : ∀ d < sb.ninodes, (sb.dinode st₁.data d).type = FileType.dir.code → IsMap sb st₁ d := by
    intro d hd hdir
    rcases eq_or_ne d inum with rfl | hne
    · exact absurd (ht₁ ▸ hdir) hplain
    · exact hstep.toTouches.isMap hd hne (h.maps d hd) hdir
  obtain ⟨⟨ok, st₂⟩, hlink, hend⟩ := bind_ok hr
  -- the entry is made, or nothing was done
  have hcases : ok = true ∧ ((sb.dinode st.data inum).nlink + 1 < bound → Tree bound sb st₂ (fun _ => 0)
        ∧ (sb.dinode st₂.data inum).nlink = (sb.dinode st.data inum).nlink + 1)
      ∨ ok = false ∧ st₂ = st₁ := by
    cases dp with
    | none =>
      grind
    | some d =>
      have hd := hdp d rfl
      obtain ⟨dnode, hl, hlink⟩ := bind_ok hlink
      obtain ⟨rfl, hdt⟩ := ilock_ok (mapError_ok hl)
      obtain ⟨⟨ok', d', st₃⟩, hdl, hlink⟩ := bind_ok hlink
      obtain ⟨rfl, rfl⟩ := hlink
      obtain ⟨hmap, ⟨rfl, -, rfl⟩ | ⟨rfl, -, hfind, -, hw⟩⟩ := dirlink_cases (hmaps d hd) hdl
      · exact .inr ⟨rfl, rfl⟩
      · refine .inl ⟨rfl, fun hlt => ?_⟩
        have h₁ := h.up hi ht hlt
        rw [hst] at h₁
        refine ⟨h₁.enter hmap hfits hi (ht₁ ▸ ht) hfind hw fun x hx => ?_, ?_⟩
        · rw [ht₁]
          simp only [hplain, and_false, if_false, add_zero, zero_add]
          unfold aheadOne
          grind
        · have hcap := h.counted.cap.2
          have hne : inum ≠ d := by
            rintro rfl
            exact hplain (ht₁ ▸ hmap.type)
          rw [hw.touches.others inum hi hne, ← hstep.inode, addLinks_one (by omega)]
  dsimp only at hend
  rcases hcases with ⟨rfl, htree⟩ | ⟨rfl, rfl⟩
  · grind
  · rw [if_neg Bool.false_ne_true] at hend
    obtain ⟨ip, hl, hend⟩ := bind_ok hend
    obtain ⟨rfl, -⟩ := ilock_ok (mapError_ok hl)
    obtain ⟨rfl, rfl⟩ := hend
    exact ⟨h.undo hi ht hst.symm, by simp⟩

/-! ## `create` -/

theorem not_plain_dots : ¬plainName (cname dotName) ∧ ¬plainName (cname dotdotName) := by decide

theorem Tree.claim {type : FileType} {st₁ : FsState} (h : Tree bound sb st fun _ => 0)
    (major minor : Nat) (ha : ialloc sb st type.code = .ok (inum, st₁))
    (hl : ilock sb st₁ inum = .ok ip) :
    Tree bound sb (iupdate sb st₁ inum (ip.init major minor)) (aheadOne inum) := by
  obtain ⟨hi, hfree, halloc, hinit, -, rfl, -⟩ := touches_ialloc major minor h.consistent ha hl
  have htouch := halloc.trans hinit.toTouches
  have hnew := hinit.inode
  generalize iupdate sb st₁ inum ((Inode.fresh type.code).init major minor) = st₂ at htouch hnew ⊢
  have hsize : (sb.dinode st₂.data inum).size = 0 := by
    rw [← hnew]
    rfl
  refine h.touch htouch (fun hdir => isMap_empty htouch.consistent hi hdir hsize) ?_
  have hview : view sb st₂ inum = ⟨type.code, 1, []⟩ := by
    unfold view
    have hnil : slotsOf sb st₂ inum = [] := by
      rw [← length_eq_zero_iff, slotsOf, length_dirSlots, content_length, hsize]
      rfl
    rw [hnil, ite_self, ← hnew]
    rfl
  refine h.counted.claim hi hfree (hview ▸ htouch.alters) ?_ fun x hx => ?_
  · rw [aheadOne_self]
  · rw [aheadOne_of_ne hx]

theorem Tree.dots {dp inum : Nat} {d ip' : Inode} (h : Tree bound sb st ahead)
    (hfits : sb.ninodes ≤ 2 ^ 16) (hdp : dp < sb.ninodes) (hi : inum < sb.ninodes)
    (hdt : (sb.dinode st.data dp).type ≠ 0) (hit : (sb.dinode st.data inum).type ≠ 0) (hne : inum ≠ dp)
    (hbelow : (sb.dinode st.data dp).nlink + 1 < bound)
    (hr : createDots sb st dp (sb.dinode st.data dp) inum (sb.dinode st.data inum) = .ok (d, ip', st')) :
    Tree bound sb st' (fun x => ahead x + aheadOne dp x) ∧ d = sb.dinode st'.data dp
      ∧ d.nlink = (sb.dinode st.data dp).nlink + 1
      ∧ (sb.dinode st'.data inum).type = (sb.dinode st.data inum).type := by
  have h₁ := h.up hdp hdt hbelow
  have hup := step_addLinks h.consistent hdp hdt 1
  have hone : (addLinks (sb.dinode st.data dp) 1).nlink = _ :=
    addLinks_one (lt_of_lt_of_le hbelow h.counted.cap.2)
  rw [createDots] at hr
  dsimp only at hr
  generalize iupdate sb st dp (addLinks (sb.dinode st.data dp) 1) = st₁ at hr h₁ hup
  have hip := hup.others inum hi hne
  rw [← hip] at hr hit ⊢
  have hdt₁ := hup.type_ne hdt
  rw [hup.inode] at hr hone
  obtain ⟨⟨ok, ip₂, st₂⟩, hdot, hr⟩ := bind_ok hr
  obtain ⟨hmap₁, ⟨rfl, -⟩ | ⟨rfl, rfl, hfind₁, -, hw₁⟩⟩ := dirlink_cases (h₁.maps inum hi) hdot
  · cases hr
  have hstep₁ := step_dirlink h₁.consistent hi hit hdot
  have h₂ : Tree bound sb st₂ fun x => ahead x + aheadOne dp x :=
    h₁.enter hmap₁ hfits hi hit hfind₁ hw₁ fun x _ => by simp [not_plain_dots.1]
  rw [Bool.not_true, if_neg Bool.false_ne_true] at hr
  have hdp₂ := hstep₁.others dp hdp hne.symm
  obtain ⟨⟨ok, ip₃, st₃⟩, hdotdot, hr⟩ := bind_ok hr
  obtain ⟨hmap₂, ⟨rfl, -⟩ | ⟨rfl, rfl, hfind₂, -, hw₂⟩⟩ := dirlink_cases (h₂.maps inum hi) hdotdot
  · cases hr
  have hstep₂ := step_dirlink h₂.consistent hi (hstep₁.type_ne hit) hdotdot
  have h₃ : Tree bound sb st₃ fun x => ahead x + aheadOne dp x :=
    h₂.enter hmap₂ hfits hdp (hdp₂ ▸ hdt₁) hfind₂ hw₂ fun x _ => by simp [not_plain_dots.2]
  obtain ⟨rfl, -, rfl⟩ := hr
  refine ⟨h₃, ?_, hone, ?_⟩
  · rw [hstep₂.others dp hdp hne.symm, hdp₂]
  · grind [hstep₂.type, hstep₁.type]

theorem Tree.create {major minor : Nat} {type : FileType} {r : Option Nat}
    (h : Tree bound sb st fun _ => 0) (hfits : sb.ninodes ≤ 2 ^ 16) (hdp : dp < sb.ninodes)
    (hbelow : type = .dir → r.isSome = true → (sb.dinode st.data dp).nlink + 1 < bound)
    (hr : create sb st dp name type major minor = .ok (r, st')) :
    Tree bound sb st' (fun _ => 0) ∧ (type = .dir → r.isSome = true →
      (sb.dinode st'.data dp).nlink = (sb.dinode st.data dp).nlink + 1) := by
  obtain ⟨d, hl, hr⟩ := bind_ok hr
  obtain ⟨rfl, hdt⟩ := ilock_ok (mapError_ok hl)
  obtain ⟨⟨found, d₁, st₁⟩, hlook, hr⟩ := bind_ok hr
  obtain ⟨rfl, rfl, -⟩ := dirlookup_same h.consistent hdp hdt hlook
  cases found with
  | some x =>
    obtain ⟨ip, -, hr⟩ := bind_ok hr
    grind
  | none =>
    obtain ⟨⟨inum, st₂⟩, ha, hr⟩ := bind_ok hr
    obtain ⟨ip, hl, hr⟩ := bind_ok hr
    obtain ⟨hi, hfree, halloc, hinit, -, hfresh, -⟩ :=
      touches_ialloc major minor h.consistent (mapError_ok ha) (mapError_ok hl)
    have hne : inum ≠ dp := fun hc => hdt (hc ▸ hfree)
    have h₃ := h.claim major minor (mapError_ok ha) (mapError_ok hl)
    dsimp only at hr
    have htype : (ip.init major minor).type = type.code := by
      rw [hfresh]
      rfl
    generalize iupdate sb st₂ inum (ip.init major minor) = st₃ at hr hinit h₃
    generalize ip.init major minor = q at hr hinit htype
    -- the directory is as before
    have hd : sb.dinode st₁.data dp = sb.dinode st₃.data dp := by
      rw [hinit.others dp hdp hne.symm, halloc.others dp hdp hne.symm]
    obtain rfl := hinit.inode
    have hit : (sb.dinode st₃.data inum).type ≠ 0 := by
      rw [htype]
      cases type <;> decide
    rw [hd] at hdt hr hbelow ⊢
    obtain ⟨⟨d₂, ip₂, st₄⟩, hdots, hr⟩ := bind_ok hr
    obtain ⟨⟨ok, d₃, st₅⟩, hlink, hr⟩ := bind_ok hr
    have hsome : r.isSome = true := by
      cases ok with
      | false => cases hr
      | true =>
        obtain ⟨rfl, -⟩ := hr
        rfl
    have hmade : Tree bound sb st₄ (fun x => aheadOne inum x + if type = .dir then aheadOne dp x else 0)
        ∧ d₂ = sb.dinode st₄.data dp ∧ (type = .dir → d₂.nlink = (sb.dinode st₃.data dp).nlink + 1)
        ∧ (sb.dinode st₄.data inum).type = type.code := by
      split at hdots
      · rename_i hdir
        obtain ⟨htree, hd₂, hone, hty⟩ := h₃.dots hfits hdp hi hdt hit hne (hbelow hdir hsome) hdots
        grind
      · rename_i hdir
        obtain ⟨rfl, -, rfl⟩ := hdots
        simp_all
    obtain ⟨h₄, rfl, hone, hty⟩ := hmade
    obtain ⟨hmap, ⟨rfl, -⟩ | ⟨rfl, -, hfind, -, hw⟩⟩ := dirlink_cases (h₄.maps dp hdp) hlink
    · cases hr
    obtain ⟨-, rfl⟩ := hr
    refine ⟨h₄.enter hmap hfits hi (hty ▸ htype ▸ hit) hfind hw fun x _ => ?_,
      fun hdir _ => hw.nlink.trans (hone hdir)⟩
    have hcode : type.code = FileType.dir.code ↔ type = .dir := by cases type <;> decide
    have hname : (if plainName (cname name) ∧ inum = x then 1 else 0) ≤ aheadOne inum x := by
      unfold aheadOne
      grind
    have hchild : (if x = dp ∧ plainName (cname name)
          ∧ (sb.dinode st₄.data inum).type = FileType.dir.code then 1 else 0)
        ≤ if type = .dir then aheadOne dp x else 0 := by
      unfold aheadOne
      split
      · grind
      · exact zero_le _
    omega

/-! ## `sys_unlink` -/

/-- Not the panic of `sys_unlink` about `nlink`. -/
def NotNlink (e : DirPanic) : Prop := e ≠ .unlinkNlink

theorem ends_fs {α : Type} {Q : α → Prop} {x : Except FsPanic α} (h : ∀ a, x = .ok a → Q a) :
    Ends Q NotNlink (x.mapError .fs) := by
  cases x with
  | ok a => exact h a rfl
  | error e => exact nofun

theorem ends_isdirempty (ip : Inode) : Ends (fun _ => True) NotNlink (isdirempty sb st ip) := by
  have hloop : ∀ (n off : Nat) (ip : Inode) (st : FsState) (hit : List Byte → Bool),
      Ends (fun _ => True) NotNlink (scanLoop sb .isdiremptyRead hit n off ip st) := by
    intro n
    induction n with
    | zero => exact fun _ _ _ _ => trivial
    | succ n ih =>
      intro off ip st hit
      have hread : Ends (fun _ => True) NotNlink (readDe sb .isdiremptyRead ip st off) := by
        refine (ends_fs (Q := fun _ => True) fun _ _ => trivial).bind fun r _ => ?_
        dsimp only
        split
        · exact error nofun
        · exact ok trivial
      refine hread.bind fun r _ => ?_
      grind [ok]
  exact (hloop ..).bind fun _ _ => trivial

/-- An inode with an entry has a link. -/
theorem Tree.nlink_pos (h : Tree bound sb st ahead) (hmap : IsMap sb st dp) (hplain : plainName nm)
    (hk : find (slotsOf sb st dp) nm = some (k, inum)) :
    inum < sb.ninodes ∧ (sb.dinode st.data inum).type ≠ 0 ∧ 0 < (sb.dinode st.data inum).nlink
      ∧ (sb.dinode st.data inum).nlink < bound := by
  have hdir : (view sb st dp).IsDir := hmap.type
  have hmem : some (nm, inum) ∈ (view sb st dp).slots := by
    rw [view_slots hmap.type]
    exact mem_of_getElem? (SlotMap.find_some hk)
  have hi := h.counted.range dp hmap.lt hdir nm inum hmem hplain
  have hne : entries sb.ninodes (view sb st) inum ≠ 0 := fun h0 =>
    not_named h0 hmap.lt hdir hmem hplain
  have ht : (view sb st inum).type ≠ 0 := fun h0 => hne (h.counted.free inum hi h0)
  have hcov := h.counted.covered inum hi ht
  refine ⟨hi, ht, ?_, h.counted.short inum hi ht⟩
  show 0 < (view sb st inum).nlink
  omega

theorem Tree.put (h : Tree bound sb st ahead) (hi : i < sb.ninodes) (ht : (sb.dinode st.data i).type ≠ 0) :
    Ends (fun st' => Tree bound sb st' ahead) NotNlink (iputLast sb st i (sb.dinode st.data i)) := by
  have herror : Ends (fun _ => True) NotNlink (iputLast sb st i (sb.dinode st.data i)) := by
    unfold iputLast
    split
    · exact (ends_fs (Q := fun _ => True) fun _ _ => trivial).bind fun _ _ => ok trivial
    · exact ok trivial
  refine herror.with_ok fun st' hr => ?_
  rcases touches_iputLast h.consistent hi ht hr with rfl | ⟨htouch, hz, htype⟩
  · exact h
  · refine h.touch htouch (fun hdir => ?_) ?_
    · rw [htype] at hdir
      exact absurd hdir (by decide)
    · exact h.counted.drop hi hz ht htouch.alters htype fun _ _ => le_refl _

theorem not_nlinkLow (hpos : 0 < ip.nlink) (hshort : ip.nlink < 2 ^ 15) :
    ¬(nlinkLow ip = true) := by
  simp only [nlinkLow, decide_eq_true_eq]
  omega

/-- `sys_unlink` from the cleared entry on. -/
theorem Tree.unlinked (h : Tree bound sb st fun _ => 0) (hi : inum < sb.ninodes)
    (hdp : dp < sb.ninodes) (hne : inum ≠ dp) (hit : (sb.dinode st.data inum).type ≠ 0)
    (hplain : plainName (cname name)) (hk : find (slotsOf sb st dp) (cname name) = some (k, inum))
    (hmap : IsMap sb st dp) (hmap₁ : IsMap sb st' dp) (hw : SlotWritten sb st dp k none st')
    (last : Bool) :
    Ends (fun st₂ => Tree bound sb st₂ fun _ => 0) NotNlink
      (let st₁ := if (sb.dinode st.data inum).type = FileType.dir.code
          then iupdate sb st' dp (addLinks (sb.dinode st'.data dp) (-1)) else st'
        let ip := addLinks (sb.dinode st.data inum) (-1)
        let st₁ := iupdate sb st₁ inum ip
        if last then (iputLast sb st₁ inum ip) else .ok st₁) := by
  have hdt := hmap.type_ne
  have hip := hw.touches.others inum hi hne
  have h₁ : Tree bound sb st' fun x => aheadOne inum x
      + if (sb.dinode st.data inum).type = FileType.dir.code then aheadOne dp x else 0 := by
    refine h.clear hmap hplain hk hmap₁ hw fun x _ => ?_
    unfold aheadOne
    simp only [zero_add, eq_comm (a := x) (b := inum)]
    by_cases hdir : (sb.dinode st.data inum).type = FileType.dir.code
    · simp [hdir]
    · simp [hdir]
  dsimp only
  rw [← hip] at h₁ ⊢
  -- the directory loses the link of '..'
  have h₂ : Tree bound sb (if (sb.dinode st'.data inum).type = FileType.dir.code
        then iupdate sb st' dp (addLinks (sb.dinode st'.data dp) (-1)) else st') (aheadOne inum)
      ∧ sb.dinode (if (sb.dinode st'.data inum).type = FileType.dir.code
        then iupdate sb st' dp (addLinks (sb.dinode st'.data dp) (-1)) else st').data inum
        = sb.dinode st'.data inum := by
    split at h₁
    · rename_i hdir
      simp only [if_pos hdir]
      exact ⟨h₁.down hdp hmap₁.type_ne, (step_addLinks hmap₁.consistent hdp hmap₁.type_ne (-1)).others inum hi hne⟩
    · grind
  obtain ⟨h₂, hip₂⟩ := h₂
  rw [← hip] at hit
  generalize (if (sb.dinode st'.data inum).type = FileType.dir.code
        then iupdate sb st' dp (addLinks (sb.dinode st'.data dp) (-1)) else st') = st₂ at h₂ hip₂ ⊢
  rw [← hip₂] at hit ⊢
  have h₃ : Tree bound sb (iupdate sb st₂ inum (addLinks (sb.dinode st₂.data inum) (-1))) fun _ => 0 := by
    have h₀ : Tree bound sb st₂ fun x => 0 + aheadOne inum x := by
      simpa only [zero_add] using h₂
    exact h₀.down hi hit
  have hstep := step_addLinks h₂.consistent hi hit (-1)
  generalize iupdate sb st₂ inum (addLinks (sb.dinode st₂.data inum) (-1)) = st₃ at h₃ hstep ⊢
  rw [hstep.inode]
  split
  · exact h₃.put hi (hstep.type_ne hit)
  · exact ok h₃

theorem Tree.unlink (last : Bool) (h : Tree bound sb st fun _ => 0) (hbound : bound ≤ 2 ^ 15)
    (hdp : dp < sb.ninodes) :
    Ends (fun r => Tree bound sb r.2 fun _ => 0) NotNlink (unlink sb st dp name last) := by
  refine (ends_fs (Q := fun d => d = sb.dinode st.data dp ∧ d.type ≠ 0) fun d hl => ?_).bind fun d hd => ?_
  · grind [ilock_ok]
  obtain ⟨rfl, hdt⟩ := hd
  split
  · exact h
  rename_i hdots
  by_cases hdir : (sb.dinode st.data dp).type = FileType.dir.code
  swap
  · rw [dirlookup, if_pos hdir]
    rintro ⟨⟩
  have hmap := h.maps dp hdp hdir
  rw [hmap.dirlookup_eq, ok_bind]
  dsimp only
  cases hk : find (slotsOf sb st dp) (cname name) with
  | none => exact h
  | some x =>
    obtain ⟨k, inum⟩ := x
    have hplain : plainName (cname name) := by
      rw [not_or] at hdots
      exact ⟨fun hc => hdots.1 (namecmp_eq_zero.mpr hc), fun hc => hdots.2 (namecmp_eq_zero.mpr hc)⟩
    obtain ⟨hi, hit, hpos, hshort⟩ := h.nlink_pos hmap hplain hk
    show Ends _ _ (if inum = dp then _ else _)
    split
    · exact h
    rename_i hne
    refine (ends_fs (Q := fun ip => ip = sb.dinode st.data inum) fun ip hl => (ilock_ok hl).1).bind
      fun ip hip => ?_
    subst hip
    rw [if_neg (not_nlinkLow hpos (by omega))]
    have hempty : Ends (fun r => r.2 = (sb.dinode st.data inum, st)) NotNlink
        (if (sb.dinode st.data inum).type = FileType.dir.code then
          isdirempty sb st (sb.dinode st.data inum) else .ok (true, sb.dinode st.data inum, st)) := by
      split
      · refine (ends_isdirempty _).with_ok fun r hr => ?_
        obtain ⟨hip, hst⟩ := isdirempty_same h.consistent hi hit hr
        exact Prod.ext hip hst
      · exact ok rfl
    refine hempty.bind fun r hr => ?_
    obtain ⟨empty, r⟩ := r
    obtain rfl : r = _ := hr
    dsimp only
    split
    · exact ok h
    obtain ⟨st₁, hclear, hmap₁, hw⟩ := hmap.clear hk
    rw [hclear, ok_bind]
    dsimp only
    rw [if_neg (not_not_intro rfl)]
    refine (h.unlinked hi hdp hne hit hplain hk hmap hmap₁ hw last).bind fun st₂ h₂ => ?_
    exact h₂

end Tree

/-! ## Runs -/

/-- The calls that change the tree. -/
inductive LinkOp where
  | create (dp : Nat) (name : List Byte) (type : FileType) (major minor : Nat)
  | link (inum : Nat) (dp : Option Nat) (name : List Byte)
  | unlink (dp : Nat) (name : List Byte) (last : Bool)

/-- Whether the call succeeds, and the state after it. -/
def linkOp (sb : Superblock) (st : FsState) : LinkOp → Except DirPanic (Bool × FsState)
  | .create dp name type major minor => do
      let (r, st) ← create sb st dp name type major minor
      .ok (r.isSome, st)
  | .link inum dp name => link sb st inum dp name
  | .unlink dp name last => unlink sb st dp name last

/-- A run stops at a panic. -/
def linkStep (sb : Superblock) (st : FsState) (op : LinkOp) : Option FsState :=
  (linkOp sb st op).toOption.map Prod.snd

/-- The inodes a call is given exist. -/
def LinkOp.InRange (sb : Superblock) : LinkOp → Prop
  | .create dp _ _ _ _ => dp < sb.ninodes
  | .link inum dp _ => inum < sb.ninodes ∧ ∀ d ∈ dp, d < sb.ninodes
  | .unlink dp _ _ => dp < sb.ninodes

/-- The inode whose count goes up: the file that gets a name, or the
directory that gets a directory. -/
def LinkOp.raises : LinkOp → Option Nat
  | .create dp _ type _ _ => if type = .dir then some dp else none
  | .link inum _ _ => some inum
  | .unlink _ _ _ => none

/-- `ip->nlink`, a `short`. -/
def nlinkShort (ip : Inode) : Int := if ip.nlink < 2 ^ 15 then ip.nlink else (ip.nlink : Int) - 2 ^ 16

/-- If the call succeeds, the count it raises is one more than before
and positive. -/
def CountsUp (sb : Superblock) (st : FsState) (op : LinkOp) : Prop :=
  ∀ st', linkOp sb st op = .ok (true, st') → ∀ i ∈ op.raises,
    nlinkShort (sb.dinode st'.data i) = nlinkShort (sb.dinode st.data i) + 1
      ∧ 0 < nlinkShort (sb.dinode st'.data i)

/-- If the call succeeds, the count it raises was not the largest
`short`. -/
def Below (sb : Superblock) (st : FsState) (op : LinkOp) : Prop :=
  ∀ st', linkOp sb st op = .ok (true, st') → ∀ i ∈ op.raises, nlinkShort (sb.dinode st.data i) < 32767

section Runs

variable {sb : Superblock} {st st' : FsState} {op : LinkOp} {bound : Nat} {ahead : Nat → Nat}

theorem Tree.mono {bound' : Nat} (h : Tree bound sb st ahead) (hle : bound ≤ bound')
    (hcap : bound' ≤ 2 ^ 16) : Tree bound' sb st ahead :=
  ⟨h.consistent, h.maps, ⟨lt_of_lt_of_le h.counted.cap.1 hle, hcap⟩, h.counted.covered,
    fun x hx ht => lt_of_lt_of_le (h.counted.short x hx ht) hle, h.counted.free, h.counted.range⟩

/-- The inode whose count goes up is in use. -/
theorem raises_inUse (hop : op.InRange sb) (hr : linkOp sb st op = .ok (r, st')) :
    ∀ i ∈ op.raises, i < sb.ninodes ∧ (sb.dinode st.data i).type ≠ 0 := by
  cases op with
  | create dp name type major minor =>
    obtain ⟨⟨r', st₁⟩, hr, -⟩ := bind_ok hr
    obtain ⟨d, hl, -⟩ := bind_ok hr
    obtain ⟨rfl, ht⟩ := ilock_ok (mapError_ok hl)
    intro i hi
    obtain ⟨-, ⟨⟩⟩ := ite_none_right_eq_some.mp hi
    exact ⟨hop, ht⟩
  | link inum dp name =>
    obtain ⟨ip, hl, -⟩ := bind_ok hr
    obtain ⟨rfl, ht⟩ := ilock_ok (mapError_ok hl)
    rintro i ⟨⟩
    exact ⟨hop.1, ht⟩
  | unlink dp name last => exact nofun

/-- One call that does not panic. -/
theorem Tree.linkOp (h : Tree (2 ^ 15) sb st fun _ => 0) (hfits : sb.ninodes ≤ 2 ^ 16)
    (hop : op.InRange sb) (hr : linkOp sb st op = .ok (r, st'))
    (hbelow : r = true → ∀ i ∈ op.raises, (sb.dinode st.data i).nlink + 1 < 2 ^ 15) :
    Tree (2 ^ 15) sb st' fun _ => 0 := by
  cases op with
  | create dp name type major minor =>
    obtain ⟨⟨r', st₁⟩, hr, hend⟩ := bind_ok hr
    obtain ⟨rfl, rfl⟩ := hend
    exact (h.create hfits hop (fun hdir hsome => hbelow hsome dp (if_pos hdir)) hr).1
  | link inum dp name => exact (h.link hfits hop.1 hop.2 (fun hs => hbelow hs inum rfl) hr).1
  | unlink dp name last => exact (h.unlink last le_rfl hop).of_ok hr

/-- A call that succeeds. -/
theorem Tree.raised (h : Tree (2 ^ 15) sb st fun _ => 0) (hfits : sb.ninodes ≤ 2 ^ 16)
    (hop : op.InRange sb) (hr : Dir.linkOp sb st op = .ok (true, st')) :
    ∀ i ∈ op.raises, (sb.dinode st.data i).nlink < 2 ^ 15
      ∧ (sb.dinode st'.data i).nlink = (sb.dinode st.data i).nlink + 1 := by
  intro i hi
  obtain ⟨hlt, ht⟩ := raises_inUse hop hr i hi
  have hshort : (sb.dinode st.data i).nlink < 2 ^ 15 := h.counted.short i hlt ht
  refine ⟨hshort, ?_⟩
  have hwide := h.mono (show 2 ^ 15 ≤ 2 ^ 16 by decide) le_rfl
  cases op with
  | create dp name type major minor =>
    obtain ⟨hdir, ⟨⟩⟩ := ite_none_right_eq_some.mp hi
    obtain ⟨⟨r', st₁⟩, hcreate, hend⟩ := bind_ok hr
    obtain ⟨hsome, rfl⟩ := Prod.mk.inj (Except.ok.inj hend)
    exact (hwide.create hfits hop (fun _ _ => by omega) hcreate).2 hdir hsome
  | link inum dp name =>
    cases hi
    exact (hwide.link hfits hop.1 hop.2 (fun _ => by omega) hr).2 rfl
  | unlink dp name last => cases hi

/-- Where the tree is counted, a count goes up right if it was not the
largest. -/
theorem Tree.countsUp_iff (h : Tree (2 ^ 15) sb st fun _ => 0) (hfits : sb.ninodes ≤ 2 ^ 16)
    (hop : op.InRange sb) : CountsUp sb st op ↔ Below sb st op := by
  refine forall₂_congr fun st' hr => forall₂_congr fun i hi => ?_
  obtain ⟨hshort, hone⟩ := h.raised hfits hop hr i hi
  unfold nlinkShort
  rw [hone, if_pos hshort]
  split <;> omega

theorem Tree.linkStep (h : Tree (2 ^ 15) sb st fun _ => 0) (hfits : sb.ninodes ≤ 2 ^ 16)
    (hop : op.InRange sb) (hbelow : Below sb st op) (hs : linkStep sb st op = some st') :
    Tree (2 ^ 15) sb st' fun _ => 0 := by
  obtain ⟨⟨r, st₁⟩, hr, rfl⟩ := map_eq_some_iff.mp hs
  have hr := toOption_some hr
  refine h.linkOp hfits hop hr fun hsome i hi => ?_
  subst hsome
  have hlt := hbelow st₁ hr i hi
  obtain ⟨hshort, -⟩ := h.raised hfits hop hr i hi
  rw [nlinkShort, if_pos hshort] at hlt
  omega

/-- Over a run from a tree whose links are counted, every count goes up
by one as an integer exactly if none is raised beyond the largest
`short`, and then `sys_unlink` does not panic about a count. -/
theorem link_counts_stay_short {st₀ : FsState} {ops : List LinkOp} (hfits : sb.ninodes ≤ 2 ^ 16)
    (h : Tree (2 ^ 15) sb st₀ fun _ => 0) (hops : ∀ op ∈ ops, op.InRange sb) :
    (Along (linkStep sb) (CountsUp sb) st₀ ops ↔ Along (linkStep sb) (Below sb) st₀ ops)
      ∧ (Along (linkStep sb) (Below sb) st₀ ops → ∀ st, run (linkStep sb) st₀ ops = some st →
        ∀ dp < sb.ninodes, ∀ name last, unlink sb st dp name last ≠ .error .unlinkNlink) := by
  have hrange : Along (linkStep sb) (fun _ op => op.InRange sb) st₀ ops := along_of_forall hops st₀
  refine ⟨along_iff (I := fun st => Tree (2 ^ 15) sb st fun _ => 0) (fun h hop => h.countsUp_iff hfits hop)
    (fun h hop hbelow hs => h.linkStep hfits hop hbelow hs) h hrange, fun hbelow st hrun dp hdp name last he => ?_⟩
  have htree : Tree (2 ^ 15) sb st fun _ => 0 :=
    run_invariant_along (fun h hop hs => Tree.linkStep h hfits hop.1 hop.2 hs) h (hrange.and hbelow) hrun
  exact (htree.unlink last le_rfl hdp).of_error he rfl

end Runs

end Xv6.Dir
