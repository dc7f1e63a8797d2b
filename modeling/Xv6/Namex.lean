import Xv6.Walks
import Xv6.RootImage

/-!
# Path lookup

`skipelem`, `namex`, `namei` and `nameiparent` of `fs.c`, with the path as
a string in memory and the buffer for the name that every round writes
again. A pointer into the path is the rest of the path from there; as
before, a byte past the end of a list is NUL.

One call of `skipelem` is one run of bytes that are no slash
(`skipelem_some`). From it, over a file system whose directories are
readable and whose entries name inodes in use, the loop of `namex` is the
walk along the names of the path.
-/

namespace Xv6.Dir

open List Nat

open ByteVec (Byte)
open SlotMap (find)
open Walks

/-! ## `fs.c` -/

/-- The rest of the path, none for 0, and the buffer `name`. -/
def skipelem (path name : List Byte) : Option (List Byte) × List Byte :=
  let path := path.dropWhile (· = slash)
  if path.headD 0 = 0 then (none, name)
  else
    let s := path
    let path := path.dropWhile fun c => c ≠ slash ∧ c ≠ 0
    let len := s.length - path.length
    let name := if DIRSIZ ≤ len then s.take DIRSIZ else s.take len ++ 0 :: name.drop (len + 1)
    (some (path.dropWhile (· = slash)), name)

/-- A call that does not return 0 moves on. -/
theorem skipelem_length {path name path' name' : List Byte}
    (h : skipelem path name = (some path', name')) : path'.length < path.length := by
  unfold skipelem at h
  dsimp only at h
  split at h
  · cases h
  · rename_i hne
    obtain ⟨h, -⟩ := Prod.mk.inj h
    cases h
    have h1 := (dropWhile_suffix (l := path) (· = slash)).length_le
    rcases hq : path.dropWhile (· = slash) with _ | ⟨c, s⟩
    · rw [hq] at hne
      exact absurd rfl hne
    · have hc : c ≠ slash := by
        have hstop := head?_dropWhile_not (· = slash) path
        rw [hq] at hstop
        simpa using hstop
      rw [hq] at hne h1
      grind [length_cons, dropWhile_cons_of_pos, dropWhile_suffix]

/-- The loop of `namex` from the inode `ip`; none stands for 0. -/
def namexLoop (sb : Superblock) (parent : Bool) (ip : Nat) (path name : List Byte) (st : FsState) :
    Except DirPanic ((Option Nat × List Byte) × FsState) :=
  match _h : skipelem path name with
  | (none, name) => .ok ((if parent then none else some ip, name), st)
  | (some path', name) => do
      let d ← (ilock sb st ip).mapError .fs
      if d.type ≠ FileType.dir.code then .ok ((none, name), st)
      else if parent ∧ path'.headD 0 = 0 then .ok ((some ip, name), st)
      else do
        let (found, _, st) ← dirlookup sb st d name
        match found with
        | none => .ok ((none, name), st)
        | some (_, next) => namexLoop sb parent next path' name st
  termination_by path.length
  decreasing_by exact skipelem_length _h

def namex (sb : Superblock) (st : FsState) (cwd : Nat) (path : List Byte) (parent : Bool) (name : List Byte) :
    Except DirPanic ((Option Nat × List Byte) × FsState) :=
  if path.headD 0 = slash then namexLoop sb parent ROOTINO path name st
  else namexLoop sb parent cwd path name st

/-- The array `name` has not been written before. -/
def namei (sb : Superblock) (st : FsState) (cwd : Nat) (path name : List Byte) :
    Except DirPanic (Option Nat × FsState) := do
  let ((ip, _), st) ← namex sb st cwd path false name
  .ok (ip, st)

def nameiparent (sb : Superblock) (st : FsState) (cwd : Nat) (path name : List Byte) :
    Except DirPanic ((Option Nat × List Byte) × FsState) := namex sb st cwd path true name

/-! ## The names of a path -/

/-- The bytes of a string before its NUL. -/
def chars (path : List Byte) : List Byte := path.takeWhile (· ≠ 0)

/-- The names of a path: the maximal runs of bytes that are no slash, each
cut to the length of a name. -/
def pathNames (path : List Byte) : List Name := (runs (· = slash) (chars path)).map (·.take DIRSIZ)

section Elements

variable {path name : List Byte}

theorem chars_dropWhile_slash (path : List Byte) :
    chars (path.dropWhile (· = slash)) = (chars path).dropWhile (· = slash) := by
  induction path with
  | nil => rfl
  | cons c s ih =>
    by_cases hc : c = slash
    · subst hc
      have hkeep : chars (slash :: s) = slash :: chars s := takeWhile_cons_of_pos (by decide)
      simp_all
    · rw [dropWhile_cons_of_neg (by simpa using hc)]
      by_cases h0 : c = 0
      · rw [h0]
        rfl
      · simp_all [chars]

theorem chars_eq_nil : chars path = [] ↔ path.headD 0 = 0 := by
  rcases path with _ | ⟨c, s⟩
  · simp [chars]
  · by_cases h0 : c = 0
    · simp [h0, chars]
    · simp [chars]

/-- The slashes in front do not matter. -/
theorem pathNames_dropWhile (path : List Byte) : pathNames (path.dropWhile (· = slash)) = pathNames path := by
  rw [pathNames, pathNames, chars_dropWhile_slash, runs_dropWhile]

/-- Behind the slashes there is a name or the end. -/
theorem pathNames_eq_nil : pathNames path = [] ↔ (path.dropWhile (· = slash)).headD 0 = 0 := by
  rw [← chars_eq_nil, ← pathNames_dropWhile, pathNames, map_eq_nil_iff]
  refine ⟨fun h => ?_, fun h => by rw [h, runs_nil]⟩
  rw [chars_dropWhile_slash] at h ⊢
  cases hq : (chars path).dropWhile (· = slash) with
  | nil => rfl
  | cons c s =>
    have hstop := head?_dropWhile_not (· = slash) (chars path)
    rw [hq] at h hstop
    exact absurd h (runs_ne_nil (by simpa using hstop))

/-- The bytes of one name and what is behind them. -/
theorem chars_split (path : List Byte) :
    chars path = path.takeWhile (fun c => c ≠ slash ∧ c ≠ 0)
      ++ chars (path.dropWhile fun c => c ≠ slash ∧ c ≠ 0) := by
  induction path with
  | nil => rfl
  | cons c s ih =>
    by_cases hc : c ≠ slash ∧ c ≠ 0
    · simp_all [chars, cons_append, ← ih]
    · simp_all

/-- What `skipelem` stores is the name. -/
theorem cname_stored {w r : List Byte} (hw : ∀ c ∈ w, c ≠ 0) (hlen : name.length = DIRSIZ) :
    cname (if DIRSIZ ≤ w.length then (w ++ r).take DIRSIZ
        else (w ++ r).take w.length ++ 0 :: name.drop (w.length + 1)) = w.take DIRSIZ
      ∧ (if DIRSIZ ≤ w.length then (w ++ r).take DIRSIZ
        else (w ++ r).take w.length ++ 0 :: name.drop (w.length + 1)).length = DIRSIZ := by
  have hall : ∀ n, ((w.take n).takeWhile (· ≠ 0)) = w.take n := fun n =>
    takeWhile_eq_self_iff.mpr fun c hc => by simpa using hw c (mem_of_mem_take hc)
  split
  · rename_i hge
    rw [take_append_of_le_length hge]
    refine ⟨?_, by simp [hge]⟩
    rw [cname, cstr, take_take, min_self, hall]
  · rename_i hlt
    have hlt : w.length < DIRSIZ := Nat.lt_of_not_le hlt
    rw [take_left]
    constructor
    · obtain ⟨m, hm⟩ := Nat.exists_eq_add_of_lt hlt
      have hrest : DIRSIZ - w.length = m + 1 := by omega
      rw [cname, cstr, take_append, hrest, take_of_length_le (le_of_lt hlt), take_succ_cons,
        takeWhile_append_of_pos fun c hc => by simpa using hw c hc, takeWhile_cons_of_neg (by simp),
        append_nil]
    · grind

theorem skipelem_none (h : pathNames path = []) : skipelem path name = (none, name) :=
  if_pos (pathNames_eq_nil.mp h)

/-- One call of `skipelem`. -/
theorem skipelem_some {nm : Name} {rest : List Name} (hlen : name.length = DIRSIZ)
    (h : pathNames path = nm :: rest) :
    ∃ path' name', skipelem path name = (some path', name') ∧ name'.length = DIRSIZ ∧ cname name' = nm
      ∧ pathNames path' = rest ∧ (path'.headD 0 = 0 ↔ rest = []) := by
  have hne : ¬(path.dropWhile (· = slash)).headD 0 = 0 := fun h0 => by
    rw [pathNames_eq_nil.mpr h0] at h
    cases h
  have hstop := head?_dropWhile_not (· = slash) path
  rw [skipelem, if_neg hne]
  rw [← pathNames_dropWhile, pathNames] at h
  generalize path.dropWhile (· = slash) = s at hne hstop h ⊢
  have hchars := chars_split s
  have hw : ∀ c ∈ s.takeWhile (fun c => c ≠ slash ∧ c ≠ 0), c ≠ slash ∧ c ≠ 0 := fun c hc => by
    simpa using all_eq_true.mp all_takeWhile c hc
  have hnonempty : s.takeWhile (fun c => c ≠ slash ∧ c ≠ 0) ≠ [] := by
    rcases s with _ | ⟨c, s⟩
    · exact absurd rfl hne
    · simp_all
  have hnext := head?_dropWhile_not (fun c => decide (c ≠ slash ∧ c ≠ 0)) s
  have hs : s = s.takeWhile (fun c => c ≠ slash ∧ c ≠ 0) ++ s.dropWhile (fun c => c ≠ slash ∧ c ≠ 0) :=
    takeWhile_append_dropWhile.symm
  generalize s.takeWhile (fun c => c ≠ slash ∧ c ≠ 0) = w at hchars hw hnonempty hs
  generalize s.dropWhile (fun c => c ≠ slash ∧ c ≠ 0) = r at hchars hnext hs ⊢
  -- behind the run is a slash or the end
  have hr : ∀ x, (chars r).head? = some x → decide (x = slash) = true := by
    intro x hx
    rcases r with _ | ⟨c, r⟩
    · cases hx
    · by_cases h0 : c = 0
      · simp [chars, h0] at hx
      · simp_all [chars]
  rw [hchars, runs_append (fun c hc => by simpa using (hw c hc).1) hnonempty hr, map_cons] at h
  obtain ⟨hnm, hrest⟩ := cons.inj h
  have hpath : pathNames (r.dropWhile (· = slash)) = rest := (pathNames_dropWhile r).trans hrest
  have hcount : s.length - r.length = w.length := by rw [hs, length_append, Nat.add_sub_cancel]
  obtain ⟨hcname, hlength⟩ := cname_stored (r := r) (fun c hc => (hw c hc).2) hlen
  dsimp only
  rw [hcount]
  rw [← hs] at hcname hlength
  refine ⟨_, _, rfl, hlength, hcname.trans hnm, hpath, ?_⟩
  rw [← hpath, pathNames_dropWhile, pathNames_eq_nil]

/-- The elements of a path without NUL, as `Xv6.elems` has them. -/
theorem elems_eq_pathNames (h : 0 ∉ path) : elems path = pathNames path := by
  suffices hfrom : ∀ (n : Nat) (path : List Byte), 0 ∉ path → path.length ≤ n →
      elemsFrom n path = (runs (· = slash) path).map (·.take DIRSIZ) by
    have hchars : chars path = path := takeWhile_eq_self_iff.mpr fun c hc => by
      simpa using fun h0 : c = 0 => h (h0 ▸ hc)
    rw [elems, hfrom path.length path h le_rfl, pathNames, hchars]
  intro n
  induction n with
  | zero =>
    intro path _ hlen
    rw [length_eq_zero_iff.mp (le_zero.mp hlen), runs_nil]
    rfl
  | succ n ih =>
    intro path h hlen
    rw [elemsFrom, Xv6.skipelem, ← runs_dropWhile]
    have hsuffix := dropWhile_suffix (l := path) (· = slash)
    have hstop := head?_dropWhile_not (· = slash) path
    cases hq : path.dropWhile (· = slash) with
    | nil => rw [runs_nil]; rfl
    | cons c s =>
      rw [hq] at hsuffix hstop
      have hc : c ≠ slash := by simpa using hstop
      have hs : (s.dropWhile fun x => x ≠ slash).dropWhile (· = slash) <:+ s :=
        (dropWhile_suffix _).trans (dropWhile_suffix _)
      have hdrop : (c :: s).dropWhile (fun x => x ≠ slash) = s.dropWhile fun x => x ≠ slash :=
        dropWhile_cons_of_pos (by simpa using hc)
      have hlen' := hsuffix.length_le.trans hlen
      have hnul : 0 ∉ (s.dropWhile fun x => x ≠ slash).dropWhile (· = slash) := fun h0 =>
        h (hsuffix.subset (mem_cons_of_mem c (hs.subset h0)))
      have hrest := ih _ hnul (hs.length_le.trans (le_of_succ_le_succ hlen'))
      rw [runs_dropWhile] at hrest
      have hnot : (fun x => !decide (x = slash)) = fun x : Byte => decide (x ≠ slash) := by simp
      rw [runs_cons_run (by simpa using hc), map_cons, hnot]
      dsimp only
      rw [hdrop, hrest]

end Elements

/-- The path and the buffer after `k` calls of `skipelem`, none if one of
them returns 0. -/
def skipelems : Nat → List Byte → List Byte → Option (List Byte × List Byte)
  | 0, path, name => some (path, name)
  | k + 1, path, name =>
      match skipelem path name with
      | (none, _) => none
      | (some path, name) => skipelems k path name

/-! ## The tree -/

def inUse (sb : Superblock) (st : FsState) (i : Nat) : Prop :=
  i < sb.ninodes ∧ (sb.dinode st.data i).type ≠ 0

def isDirectory (sb : Superblock) (st : FsState) (i : Nat) : Prop :=
  (sb.dinode st.data i).type = FileType.dir.code

instance (sb : Superblock) (st : FsState) : DecidablePred (isDirectory sb st) := fun _ =>
  inferInstanceAs (Decidable (_ = _))

/-- The inode of the first entry with the name. -/
def entry (sb : Superblock) (st : FsState) (i : Nat) (nm : Name) : Option Nat :=
  (find (slotsOf sb st i) nm).map Prod.snd

/-- A directory tree: what is in use and is a directory can be read, and
its entries name inodes in use. -/
structure IsTree (sb : Superblock) (st : FsState) : Prop where
  dirs : ∀ i, inUse sb st i → isDirectory sb st i → IsDir sb st i
  closed : ∀ i, inUse sb st i → isDirectory sb st i → ∀ nm j, entry sb st i nm = some j → inUse sb st j
  root : inUse sb st ROOTINO

/-- Where a walk along the path begins. -/
def startOf (cwd : Nat) (path : List Byte) : Nat := if path.headD 0 = slash then ROOTINO else cwd

/-- What the lookups of a path find. -/
structure FollowsPath (sb : Superblock) (st : FsState) (cwd : Nat) (path name : List Byte) : Prop where
  /-- the calls of `skipelem` yield the names in order, -/
  element : ∀ (k : Nat) nm, (pathNames path)[k]? = some nm →
    ∃ path' name', skipelems (k + 1) path name = some (path', name') ∧ cname name' = nm
  /-- and then one returns 0 -/
  ends : skipelems ((pathNames path).length + 1) path name = none
  /-- `namei` follows all names -/
  namei : Dir.namei sb st cwd path name
    = .ok (follow (isDirectory sb st) (entry sb st) (pathNames path) (startOf cwd path), st)
  namei_fails : Dir.namei sb st cwd path name = .ok (none, st)
    ↔ ∃ as nm bs i, pathNames path = as ++ nm :: bs
      ∧ follow (isDirectory sb st) (entry sb st) as (startOf cwd path) = some i
      ∧ (¬isDirectory sb st i ∨ entry sb st i nm = none)
  /-- `nameiparent` follows all but the last -/
  nameiparent : ∃ name', Dir.nameiparent sb st cwd path name
      = .ok (((followParent (isDirectory sb st) (entry sb st) (pathNames path) (startOf cwd path)).map
          Prod.fst, name'), st)
    ∧ ∀ x, followParent (isDirectory sb st) (entry sb st) (pathNames path) (startOf cwd path) = some x →
      cname name' = x.2
  nameiparent_fails : (∃ name', Dir.nameiparent sb st cwd path name = .ok ((none, name'), st))
    ↔ pathNames path = []
      ∨ follow (isDirectory sb st) (entry sb st) (pathNames path).dropLast (startOf cwd path) = none
      ∨ ∃ i, follow (isDirectory sb st) (entry sb st) (pathNames path).dropLast (startOf cwd path) = some i
        ∧ ¬isDirectory sb st i
  /-- the two lookups agree -/
  agree : pathNames path ≠ [] → ∀ dp name' st', Dir.nameiparent sb st cwd path name = .ok ((dp, name'), st') →
    (dp = none → Dir.namei sb st cwd path name = .ok (none, st'))
      ∧ ∀ i ∈ dp, ∃ found ip', dirlookup sb st' (sb.dinode st'.data i) name' = .ok (found, ip', st')
        ∧ Dir.namei sb st cwd path name = .ok (found.map Prod.snd, st')

section Lookup

variable {sb : Superblock} {st : FsState} {cwd i : Nat} {path name : List Byte} {parent : Bool}

theorem skipelems_element (hlen : name.length = DIRSIZ) {k : Nat} {nm : Name}
    (hk : (pathNames path)[k]? = some nm) :
    ∃ path' name', skipelems (k + 1) path name = some (path', name') ∧ cname name' = nm := by
  induction k generalizing path name with
  | zero =>
    cases hnames : pathNames path with
    | nil =>
      rw [hnames] at hk
      cases hk
    | cons nm' rest =>
      rw [hnames] at hk
      cases hk
      obtain ⟨path', name', hskip, -, hnm, -⟩ := skipelem_some hlen hnames
      simp_all [skipelems, hskip]
  | succ k ih =>
    cases hnames : pathNames path with
    | nil =>
      rw [hnames] at hk
      cases hk
    | cons nm' rest =>
      rw [hnames] at hk
      obtain ⟨path', name', hskip, hlen', -, hrest, -⟩ := skipelem_some hlen hnames
      simp_all [skipelems, hskip]

theorem skipelems_ends (hlen : name.length = DIRSIZ) : skipelems ((pathNames path).length + 1) path name = none := by
  induction hnames : pathNames path generalizing path name with
  | nil =>
    rw [length_nil, skipelems, skipelem_none hnames]
  | cons nm rest ih =>
    obtain ⟨path', name', hskip, hlen', -, hrest, -⟩ := skipelem_some hlen hnames
    rw [length_cons, skipelems, hskip]
    exact ih hlen' hrest

/-! ## The loop -/

theorem namexLoop_nil (h : pathNames path = []) :
    namexLoop sb parent i path name st = .ok ((if parent then none else some i, name), st) := by
  rw [namexLoop]
  split
  · simp_all [skipelem_none h]
  · simp_all [skipelem_none h]

/-- One round. -/
theorem namexLoop_cons {nm : Name} {rest : List Name} (ht : IsTree sb st) (hi : inUse sb st i)
    (hlen : name.length = DIRSIZ) (h : pathNames path = nm :: rest) :
    ∃ path' name', name'.length = DIRSIZ ∧ cname name' = nm ∧ pathNames path' = rest
      ∧ namexLoop sb parent i path name st
        = if ¬isDirectory sb st i then .ok ((none, name'), st)
          else if parent ∧ rest = [] then .ok ((some i, name'), st)
          else match entry sb st i nm with
            | none => .ok ((none, name'), st)
            | some next => namexLoop sb parent next path' name' st := by
  obtain ⟨path', name', hskip, hlen', hnm, hrest, hlast⟩ := skipelem_some hlen h
  refine ⟨path', name', hlen', hnm, hrest, ?_⟩
  rw [namexLoop]
  split
  · grind
  · rename_i p' n' hs
    rw [hskip] at hs
    obtain ⟨hp, rfl⟩ := Prod.mk.inj hs
    cases hp
    have hl : ilock sb st i = .ok (sb.dinode st.data i) := by rw [ilock, if_neg hi.2]
    rw [hl]
    simp only [Except.mapError, Ends.ok_bind, hlast]
    by_cases hdir : isDirectory sb st i
    · have htype : (sb.dinode st.data i).type = FileType.dir.code := hdir
      rw [if_neg (not_not_intro htype), if_neg (not_not_intro hdir)]
      split
      · rfl
      · rw [(ht.dirs i hi hdir).dirlookup_eq, Ends.ok_bind, hnm, entry]
        cases find (slotsOf sb st i) nm with
        | none => rfl
        | some x => rfl
    · have htype : ¬(sb.dinode st.data i).type = FileType.dir.code := hdir
      rw [if_pos htype, if_pos hdir]

theorem namexLoop_follow (path : List Byte) (ht : IsTree sb st) (hi : inUse sb st i)
    (hlen : name.length = DIRSIZ) :
    ∃ name', namexLoop sb false i path name st
      = .ok ((follow (isDirectory sb st) (entry sb st) (pathNames path) i, name'), st) := by
  induction hnames : pathNames path generalizing path name i with
  | nil => exact ⟨name, namexLoop_nil hnames⟩
  | cons nm rest ih =>
    obtain ⟨path', name', hlen', hnm, hrest, hround⟩ := namexLoop_cons ht hi hlen hnames
    rw [hround, follow]
    by_cases hdir : isDirectory sb st i
    · rw [if_neg (not_not_intro hdir), if_neg (fun hc => Bool.false_ne_true hc.1), if_pos hdir]
      cases hent : entry sb st i nm with
      | none => exact ⟨name', rfl⟩
      | some j => exact ih path' (ht.closed i hi hdir nm j hent) hlen' hrest
    · grind

theorem namexLoop_followParent (path : List Byte) (ht : IsTree sb st) (hi : inUse sb st i)
    (hlen : name.length = DIRSIZ) :
    ∃ name', namexLoop sb true i path name st
        = .ok (((followParent (isDirectory sb st) (entry sb st) (pathNames path) i).map Prod.fst, name'), st)
      ∧ ∀ x, followParent (isDirectory sb st) (entry sb st) (pathNames path) i = some x → cname name' = x.2 := by
  induction hnames : pathNames path generalizing path name i with
  | nil => exact ⟨name, namexLoop_nil hnames, by rintro _ ⟨⟩⟩
  | cons nm rest ih =>
    obtain ⟨path', name', hlen', hnm, hrest, hround⟩ := namexLoop_cons ht hi hlen hnames
    rw [hround]
    by_cases hdir : isDirectory sb st i
    · rw [if_neg (not_not_intro hdir)]
      rcases eq_or_ne rest [] with rfl | hne
      · -- the last name: stop one level early
        rw [if_pos ⟨rfl, rfl⟩, followParent_singleton, if_pos hdir]
        grind
      · rw [if_neg fun hc => hne hc.2, followParent_cons hne, if_pos hdir]
        cases hent : entry sb st i nm with
        | none => exact ⟨name', rfl, by rintro _ ⟨⟩⟩
        | some j => exact ih path' (ht.closed i hi hdir nm j hent) hlen' hrest
    · have hnone : followParent (isDirectory sb st) (entry sb st) (nm :: rest) i = none := by
        rcases eq_or_ne rest [] with rfl | hne
        · rw [followParent_singleton, if_neg hdir]
        · rw [followParent_cons hne, if_neg hdir]
      grind

theorem namex_eq (sb : Superblock) (st : FsState) (cwd : Nat) (path : List Byte) (parent : Bool) (name : List Byte) :
    namex sb st cwd path parent name = namexLoop sb parent (startOf cwd path) path name st := by
  unfold namex startOf
  split
  · rfl
  · rfl

/-- Path lookup follows the path. -/
theorem path_lookup (ht : IsTree sb st) (hcwd : inUse sb st cwd) (path : List Byte)
    (hlen : name.length = DIRSIZ) : FollowsPath sb st cwd path name := by
  have hstart : inUse sb st (startOf cwd path) := by
    unfold startOf
    split
    · exact ht.root
    · exact hcwd
  obtain ⟨name₁, hwalk⟩ := namexLoop_follow path ht hstart hlen
  obtain ⟨name₂, hparent, hlast⟩ := namexLoop_followParent path ht hstart hlen
  have hnamei : namei sb st cwd path name
      = .ok (follow (isDirectory sb st) (entry sb st) (pathNames path) (startOf cwd path), st) := by
    rw [namei, namex_eq, hwalk]
    rfl
  rw [← namex_eq] at hparent
  refine ⟨fun k nm => skipelems_element hlen, skipelems_ends hlen, hnamei, ?_, ⟨name₂, hparent, hlast⟩, ?_,
    fun hne dp name' st' hr => ?_⟩
  · rw [hnamei, ← follow_eq_none]
    simp
  · rw [← followParent_eq_none, nameiparent, hparent]
    simp
  · rw [nameiparent, hparent] at hr
    simp only [Except.ok.injEq, Prod.mk.injEq] at hr
    obtain ⟨⟨rfl, rfl⟩, rfl⟩ := hr
    rw [hnamei, follow_eq_entry hne]
    cases hp : followParent (isDirectory sb st) (entry sb st) (pathNames path) (startOf cwd path) with
    | none => exact ⟨fun _ => rfl, by rintro _ ⟨⟩⟩
    | some x =>
      refine ⟨by rintro ⟨⟩, fun i hi => ?_⟩
      cases hi
      obtain ⟨hreach, hdir⟩ := followParent_eq_some hp
      have huse : inUse sb st x.1 :=
        follow_invariant (I := inUse sb st) (fun i nm j hi hdir hent => ht.closed i hi hdir nm j hent)
          hstart hreach
      refine ⟨_, _, (ht.dirs x.1 huse hdir).dirlookup_eq name₂, ?_⟩
      rw [hlast x hp, Option.map_map]
      rfl

end Lookup

theorem rootImage_isTree : IsTree mkfsSuper rootImage := by
  have hone : ∀ i, inUse mkfsSuper rootImage i → isDirectory mkfsSuper rootImage i → i = 1 := by
    intro i hi hdir
    by_contra h1
    unfold isDirectory at hdir
    rcases eq_or_ne i 2 with rfl | h2
    · rw [rootImage_file] at hdir
      exact absurd hdir (by decide)
    · exact hi.2 (rootImage_free hi.1 h1 h2)
  have hroot : inUse mkfsSuper rootImage 1 := ⟨by decide, by rw [rootImage_root]; decide⟩
  have hfile : inUse mkfsSuper rootImage 2 := ⟨by decide, by rw [rootImage_file]; decide⟩
  refine ⟨fun i hi hdir => ?_, fun i hi hdir nm j hj => ?_, hroot⟩
  · obtain rfl := hone i hi hdir
    exact rootImage_isMap.toIsDir
  · obtain rfl := hone i hi hdir
    obtain ⟨⟨k, j'⟩, hk, rfl⟩ := Option.map_eq_some_iff.mp hj
    have hmem := mem_of_getElem? (SlotMap.find_some hk)
    rw [rootImage_slots, rootSlots] at hmem
    grind

/-- The path `/./f/` from the root directory leads to the file. -/
theorem path_lookup_file :
    namei mkfsSuper rootImage 1 [slash, 0x2e, slash, 0x66, slash] (replicate DIRSIZ 0xff)
      = .ok (some 2, rootImage) := by
  have h := (path_lookup rootImage_isTree rootImage_isTree.root [slash, 0x2e, slash, 0x66, slash]
    (length_replicate (n := DIRSIZ) (a := (0xff : Byte)))).namei
  have hnames : pathNames [slash, 0x2e, slash, 0x66, slash] = [dotName, fileName] := by decide
  have hdot : entry mkfsSuper rootImage 1 dotName = some 1 := by
    rw [entry, rootImage_slots]
    rfl
  have hfile : entry mkfsSuper rootImage 1 fileName = some 2 := by
    rw [entry, rootImage_slots]
    rfl
  have hdir : isDirectory mkfsSuper rootImage 1 := rootImage_isMap.type
  rw [h, hnames, startOf, if_pos (by rfl)]
  show Except.ok (follow _ _ [dotName, fileName] 1, _) = _
  simp only [follow, if_pos hdir, hdot, hfile, Option.bind_some]

end Xv6.Dir
