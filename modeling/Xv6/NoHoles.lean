import Xv6.Ends
import Xv6.StepSystem
import Xv6.FsDir

/-!
# Files have no holes

In a consistent file system every block of a file below its size is
mapped. Every operation on the disk keeps it that way, those on
directories included, and a write that stops halfway too. A read then
finds every block in place: it allocates nothing, logs nothing and does
not panic.
-/

namespace Xv6.Dir

open Function Nat

open ByteVec (Byte)
open StepSystem

/-! ## Steps on one inode -/

/-- A step on inode `i` that leaves the other inodes and the content of
those in use alone. -/
structure Touches (sb : Superblock) (st : FsState) (i : Nat) (st' : FsState) : Prop where
  consistent : Consistent sb st'.data
  others : ∀ j < sb.ninodes, j ≠ i → sb.dinode st'.data j = sb.dinode st.data j
  contents : ∀ j < sb.ninodes, j ≠ i → (sb.dinode st.data j).type ≠ 0 →
    content sb st'.data j = content sb st.data j

/-- One that ends with the in-memory copy `ip'` written back. -/
structure Step (sb : Superblock) (st : FsState) (i : Nat) (ip' : Inode) (st' : FsState) : Prop
    extends Touches sb st i st' where
  inode : ip' = sb.dinode st'.data i
  type : ip'.type = (sb.dinode st.data i).type

section Step

variable {sb : Superblock} {st st' st'' : FsState} {i : Nat} {ip ip' : Inode}

theorem Touches.trans (h₁ : Touches sb st i st') (h₂ : Touches sb st' i st'') : Touches sb st i st'' :=
  ⟨h₂.consistent, fun j hj hji => (h₂.others j hj hji).trans (h₁.others j hj hji),
    fun j hj hji ht => (h₂.contents j hj hji (h₁.others j hj hji ▸ ht)).trans (h₁.contents j hj hji ht)⟩

theorem Step.refl (h : Consistent sb st.data) : Step sb st i (sb.dinode st.data i) st :=
  ⟨⟨h, fun _ _ _ => rfl, fun _ _ _ _ => rfl⟩, rfl, rfl⟩

theorem Step.trans (h₁ : Step sb st i ip st') (h₂ : Step sb st' i ip' st'') : Step sb st i ip' st'' :=
  ⟨h₁.toTouches.trans h₂.toTouches, h₂.inode, h₂.type.trans (h₁.inode ▸ h₁.type)⟩

/-- `iupdate` of an inode whose blocks and size are as before. -/
theorem step_iupdate (h : Consistent sb st.data) (hi : i < sb.ninodes)
    (ht : (sb.dinode st.data i).type ≠ 0) (hfits : ip'.Fits)
    (hfields : ip'.addrs = (sb.dinode st.data i).addrs ∧ ip'.size = (sb.dinode st.data i).size
      ∧ ip'.type = (sb.dinode st.data i).type) : Step sb st i ip' (iupdate sb st i ip') := by
  obtain ⟨haddrs, hsize, htype⟩ := hfields
  have hu : Updated sb st.data (iupdate sb st i ip').data i ip' := iupdate_spec hfits hi
  have hself : sb.dinode (iupdate sb st i ip').data i = ip' := by rw [hu.inodes, if_pos rfl]
  have hother : ∀ j, j ≠ i → sb.dinode (iupdate sb st i ip').data j = sb.dinode st.data j :=
    fun j hji => by rw [hu.inodes, if_neg hji]
  have huntouched : ∀ j < sb.ninodes, j ≠ i → (sb.dinode st.data j).type ≠ 0 →
      Untouched sb st.data (iupdate sb st i ip').data j := fun j hj hji htj =>
    SameData.untouched ⟨fun _ _ => rfl, fun _ _ => rfl⟩ h.owned hu hji hj htj
  refine ⟨⟨?_, fun j _ hji => hother j hji,
    fun j hj hji htj => (huntouched j hj hji htj).content_eq⟩, hself.symm, htype⟩
  refine h.of_untouched (i := i) (hu.opSpec_same h.owned hi ht haddrs htype).owned huntouched
    (fun j _ hji => by rw [hother j hji]) (fun _ => ?_) fun _ k hk => ?_
  · rw [hself, hsize]
    exact h.sized i hi ht
  · rw [hself] at hk ⊢
    rw [hsize] at hk
    rw [slotVal_congr (d := st.data) haddrs fun hne => hu.frame _ ((h.owned.locked hi ht).indBlock hne).1]
    exact h.mapped i hi ht k hk

/-- `writei`, with any source. -/
theorem step_writei (h : Consistent sb st.data) (hi : i < sb.ninodes)
    (ht : (sb.dinode st.data i).type ≠ 0) {src : Source} {off n : Nat} {r : Int} (hoff : off < 2 ^ 32)
    (hn : n < 2 ^ 32) (hr : writei sb st i (sb.dinode st.data i) src off n = .ok (r, ip', st')) :
    Step sb st i ip' st' := by
  have hl := h.owned.locked hi ht
  by_cases href : writeRefused (sb.dinode st.data i) off n
  · rw [writei_refused hoff hn href] at hr
    obtain ⟨-, rfl, rfl⟩ := hr
    exact .refl h
  · rcases hl.writei_accepted src (sb.dinode_fits st.data i) hn href with
      ⟨tot, ip₂, st₂, d₁, ip₁, hw, hspec⟩ | ⟨herr, -⟩
    · obtain ⟨-, rfl, rfl⟩ := Except.ok.inj (hr.symm.trans hw)
      refine ⟨⟨hspec.consistent h hi ht href, fun j hj hji => ?_,
        fun j hj hji htj => (hspec.untouched hl hj hji htj).content_eq⟩, hspec.dinode_self.symm, ?_⟩
      · exact hspec.updated.inode_of_ne hji (hspec.wrote.grows.inodes j hj)
      · rw [hspec.fields]
        exact hspec.wrote.grows.type_eq
    · rw [hr] at herr
      cases herr

end Step

/-! ## Reading entries -/

section Read

variable {sb : Superblock} {st st' : FsState} {i n off : Nat} {ip' : Inode} {name : List Byte}

theorem content_length (sb : Superblock) (d : Disk) (i : Nat) :
    (content sb d i).length = (sb.dinode d i).size := by simp [content]

/-- An entry is read whole where there is one, without any effect. -/
theorem readDe_eq (h : Consistent sb st.data) (hi : i < sb.ninodes)
    (ht : (sb.dinode st.data i).type ≠ 0) (short : DirPanic) (hoff : off + DESIZE < 2 ^ 32) :
    readDe sb short (sb.dinode st.data i) st off
      = if off + DESIZE ≤ (sb.dinode st.data i).size
        then .ok (((content sb st.data i).drop off).take DESIZE, sb.dinode st.data i, st)
        else .error short := by
  have hoff' : off + 16 < 2 ^ 32 := hoff
  have hlen := content_length sb st.data i
  have hlen' : (((content sb st.data i).drop off).take DESIZE).length
      = min 16 ((sb.dinode st.data i).size - off) := by
    rw [List.length_take, List.length_drop, hlen]
  have hread := h.readi_spec (n := DESIZE) hi ht (show off < 2 ^ 32 by omega) (by decide)
    fun j _ => (rfl : (fun _ => true) j = true)
  rw [readDe, hread]
  show (if (((readBytes _ _ off DESIZE).length : Nat) : Int) ≠ DESIZE then _ else _) = _
  rw [readBytes]
  by_cases hle : off + DESIZE ≤ (sb.dinode st.data i).size
  · grind
  · grind

/-- The loops over the entries stay below this. -/
theorem deRounds_lt (h : Consistent sb st.data) (hi : i < sb.ninodes)
    (ht : (sb.dinode st.data i).type ≠ 0) (hoff : off ≤ 2 * DESIZE) :
    off + DESIZE * deRounds (sb.dinode st.data i).size off + DESIZE < 2 ^ 32 := by
  have hsize : (sb.dinode st.data i).size ≤ 274432 := h.sized i hi ht
  have hoff' : off ≤ 32 := hoff
  show off + 16 * (((sb.dinode st.data i).size - off + 16 - 1) / 16) + 16 < 2 ^ 32
  omega

theorem scanLoop_same (h : Consistent sb st.data) (hi : i < sb.ninodes)
    (ht : (sb.dinode st.data i).type ≠ 0) {short : DirPanic} {hit : List Byte → Bool}
    {r : Nat × Option (List Byte)} :
    ∀ {off}, off + DESIZE * n + DESIZE < 2 ^ 32 →
    scanLoop sb short hit n off (sb.dinode st.data i) st = .ok (r, ip', st') →
    ip' = sb.dinode st.data i ∧ st' = st ∧ r.1 < 2 ^ 32 := by
  induction n with
  | zero =>
    intro off hlt hr
    obtain ⟨rfl, rfl, rfl⟩ := hr
    exact ⟨rfl, rfl, by omega⟩
  | succ n ih =>
    intro off hlt hr
    rw [mul_succ] at hlt
    rw [scanLoop, readDe_eq h hi ht _ (by omega)] at hr
    split at hr
    · grind [Ends.ok_bind]
    · cases hr

theorem scan_same (h : Consistent sb st.data) (hi : i < sb.ninodes)
    (ht : (sb.dinode st.data i).type ≠ 0) {short : DirPanic} {hit : List Byte → Bool}
    {r : Nat × Option (List Byte)} (hoff : off ≤ 2 * DESIZE)
    (hr : scan sb short hit off (sb.dinode st.data i) st = .ok (r, ip', st')) :
    ip' = sb.dinode st.data i ∧ st' = st ∧ r.1 < 2 ^ 32 :=
  scanLoop_same h hi ht (deRounds_lt h hi ht hoff) hr

theorem dirlookup_same (h : Consistent sb st.data) (hi : i < sb.ninodes)
    (ht : (sb.dinode st.data i).type ≠ 0) {r : Option (Nat × Nat)}
    (hr : dirlookup sb st (sb.dinode st.data i) name = .ok (r, ip', st')) :
    ip' = sb.dinode st.data i ∧ st' = st ∧ ∀ x, r = some x → x.1 < 2 ^ 32 := by
  rw [dirlookup] at hr
  split at hr
  · cases hr
  · obtain ⟨⟨⟨off, de⟩, ip₁, st₁⟩, hscan, hr⟩ := Ends.bind_ok hr
    obtain ⟨rfl, rfl, hlt⟩ := scan_same h hi ht (zero_le _) hscan
    obtain ⟨rfl, rfl, rfl⟩ := hr
    simp_all

theorem isdirempty_same (h : Consistent sb st.data) (hi : i < sb.ninodes)
    (ht : (sb.dinode st.data i).type ≠ 0) {r : Bool}
    (hr : isdirempty sb st (sb.dinode st.data i) = .ok (r, ip', st')) :
    ip' = sb.dinode st.data i ∧ st' = st := by
  obtain ⟨⟨⟨off, de⟩, ip₁, st₁⟩, hscan, hr⟩ := Ends.bind_ok hr
  obtain ⟨rfl, rfl, -⟩ := scan_same h hi ht le_rfl hscan
  obtain ⟨-, rfl, rfl⟩ := hr
  exact ⟨rfl, rfl⟩

end Read

/-! ## `dirlink`, `create` and `sys_unlink` -/

section Ops

variable {sb : Superblock} {st st' : FsState} {i : Nat} {ip' : Inode} {name : List Byte}

theorem step_writeDe (h : Consistent sb st.data) (hi : i < sb.ninodes)
    (ht : (sb.dinode st.data i).type ≠ 0) {de : List Byte} {off : Nat} {r : Int} (hoff : off < 2 ^ 32)
    (hr : writeDe sb st i (sb.dinode st.data i) de off = .ok (r, ip', st')) : Step sb st i ip' st' := by
  rw [writeDe] at hr
  cases hw : writei sb st i (sb.dinode st.data i) (fun j => de[j]?) off DESIZE with
  | error e =>
    rw [hw] at hr
    cases hr
  | ok x =>
    rw [hw] at hr
    cases hr
    exact step_writei h hi ht hoff (by decide) hw

theorem step_dirlink (h : Consistent sb st.data) (hi : i < sb.ninodes)
    (ht : (sb.dinode st.data i).type ≠ 0) {inum : Nat} {ok : Bool}
    (hr : dirlink sb st i (sb.dinode st.data i) name inum = .ok (ok, ip', st')) :
    Step sb st i ip' st' := by
  obtain ⟨⟨found, ip₁, st₁⟩, hlook, hr⟩ := Ends.bind_ok hr
  obtain ⟨rfl, rfl, -⟩ := dirlookup_same h hi ht hlook
  cases found with
  | some x =>
    obtain ⟨-, rfl, rfl⟩ := hr
    exact .refl h
  | none =>
    obtain ⟨⟨⟨off, de⟩, ip₂, st₂⟩, hscan, hr⟩ := Ends.bind_ok hr
    obtain ⟨rfl, rfl, hlt⟩ := scan_same h hi ht (zero_le _) hscan
    obtain ⟨⟨r, ip₃, st₃⟩, hw, hr⟩ := Ends.bind_ok hr
    have hstep := step_writeDe h hi ht hlt hw
    grind

theorem addLinks_fits {ip : Inode} (h : ip.Fits) (delta : Int) : (addLinks ip delta).Fits :=
  ⟨h.type, h.major, h.minor, mod_lt _ (by decide), h.size, h.addrs⟩

theorem step_addLinks (h : Consistent sb st.data) (hi : i < sb.ninodes)
    (ht : (sb.dinode st.data i).type ≠ 0) (delta : Int) :
    Step sb st i (addLinks (sb.dinode st.data i) delta)
      (iupdate sb st i (addLinks (sb.dinode st.data i) delta)) :=
  step_iupdate h hi ht (addLinks_fits (sb.dinode_fits st.data i) delta) ⟨rfl, rfl, rfl⟩

/-- The inode of a step has the type it had. -/
theorem Step.type_ne (h : Step sb st i ip' st') (ht : (sb.dinode st.data i).type ≠ 0) :
    (sb.dinode st'.data i).type ≠ 0 := by
  rw [← h.inode, h.type]
  exact ht

theorem Step.other_type_ne {j : Nat} (h : Step sb st i ip' st') (hj : j < sb.ninodes) (hji : j ≠ i)
    (ht : (sb.dinode st.data j).type ≠ 0) : (sb.dinode st'.data j).type ≠ 0 := by
  rwa [h.others j hj hji]

theorem mapError_ok {ε ε' α : Type} {f : ε → ε'} {r : Except ε α} {a : α} (h : r.mapError f = .ok a) :
    r = .ok a := by
  cases r with
  | error e => cases h
  | ok b => rw [Except.ok.inj h]

theorem createDots_step {dp inum : Nat} {d ip : Inode} (h : Consistent sb st.data)
    (hdp : dp < sb.ninodes) (hdt : (sb.dinode st.data dp).type ≠ 0) (hi : inum < sb.ninodes)
    (hit : (sb.dinode st.data inum).type ≠ 0) (hne : inum ≠ dp)
    (hr : createDots sb st dp (sb.dinode st.data dp) inum (sb.dinode st.data inum) = .ok (d, ip, st')) :
    Consistent sb st'.data ∧ d = sb.dinode st'.data dp ∧ d.type ≠ 0 := by
  have h₁ := step_addLinks h hdp hdt 1
  have hino := (h₁.others inum hi hne).symm
  rw [createDots, hino] at hr
  obtain ⟨⟨ok, ip₁, st₁⟩, hlink, hr⟩ := Ends.bind_ok hr
  have h₂ := step_dirlink h₁.consistent hi (hino ▸ hit) hlink
  dsimp only at hr
  split at hr
  · cases hr
  · obtain ⟨⟨ok', ip₂, st₂⟩, hlink', hr⟩ := Ends.bind_ok hr
    rw [h₂.inode] at hlink'
    have h₃ := step_dirlink h₂.consistent hi (h₂.type_ne (hino ▸ hit)) hlink'
    dsimp only at hr
    split at hr
    · cases hr
    · obtain ⟨rfl, rfl, rfl⟩ := hr
      have hd : sb.dinode st'.data dp = addLinks (sb.dinode st.data dp) 1 := by
        rw [h₃.others dp hdp hne.symm, h₂.others dp hdp hne.symm, ← h₁.inode]
      exact ⟨h₃.consistent, hd.symm, hdt⟩

/-- The inode `ialloc` claims, with its fields set. -/
theorem touches_ialloc {inum : Nat} (major minor : Nat) {type : FileType} {ip : Inode}
    (h : Consistent sb st.data) (ha : ialloc sb st type.code = .ok (inum, st'))
    (hl : ilock sb st' inum = .ok ip) :
    inum < sb.ninodes ∧ (sb.dinode st.data inum).type = 0 ∧ Touches sb st inum st'
      ∧ Step sb st' inum (ip.init major minor) (iupdate sb st' inum (ip.init major minor))
      ∧ (ip.init major minor).type ≠ 0 ∧ ip = Inode.fresh type.code ∧ 1 ≤ inum := by
  have hcode : type.code < 256 ^ 2 := by cases type <;> decide
  obtain ⟨hpos, hlt, hfree, hu⟩ := ialloc_ok hcode ha
  obtain ⟨rfl, ht⟩ := ilock_ok hl
  have hip : sb.dinode st'.data inum = Inode.fresh type.code := by rw [hu.inodes, if_pos rfl]
  have hother : ∀ j, j ≠ inum → sb.dinode st'.data j = sb.dinode st.data j := fun j hj => by
    rw [hu.inodes, if_neg hj]
  have hsame : SameData sb st.data st.data := ⟨fun _ _ => rfl, fun _ _ => rfl⟩
  have howned : Owned sb st'.data (sb.dinode st'.data) := by
    have h₀ : Owned sb st.data (update (sb.dinode st.data) inum (sb.dinode st.data inum)) := by
      rw [update_eq_self]
      exact h.owned
    refine (hu.opSpec_empty h.owned hsame h₀ (fun s => ?_) fun s => ?_).owned
    · rw [update_eq_self]
      exact Owned.slots_free hfree s
    · simp [slotVal, Inode.fresh]
  have huntouched : ∀ j < sb.ninodes, j ≠ inum → (sb.dinode st.data j).type ≠ 0 →
      Untouched sb st.data st'.data j := fun j hj hji htj => hsame.untouched h.owned hu hji hj htj
  have hcons : Consistent sb st'.data := by
    refine h.of_untouched (i := inum) howned huntouched
      (fun j _ hji => by rw [hother j hji]) (fun _ => ?_) fun _ k hk => ?_
    · rw [hip]
      exact zero_le _
    · rw [hip] at hk
      exact absurd hk (not_lt_zero k)
  have hfits := sb.dinode_fits st'.data inum
  refine ⟨hlt, hfree, ⟨hcons, fun j _ => hother j, fun j hj hji htj => (huntouched j hj hji htj).content_eq⟩,
    step_iupdate hcons hlt ht ?_ ⟨rfl, rfl, rfl⟩, ht, hip, hpos⟩
  exact ⟨hfits.type, mod_lt _ (by decide), mod_lt _ (by decide), by show 1 < 256 ^ 2; decide,
    hfits.size, hfits.addrs⟩

theorem create_consistent {dp major minor : Nat} {type : FileType} {r : Option Nat}
    (h : Consistent sb st.data) (hdp : dp < sb.ninodes)
    (hr : create sb st dp name type major minor = .ok (r, st')) : Consistent sb st'.data := by
  obtain ⟨d, hl, hr⟩ := Ends.bind_ok hr
  obtain ⟨rfl, hdt⟩ := ilock_ok (mapError_ok hl)
  obtain ⟨⟨found, d₁, st₁⟩, hlook, hr⟩ := Ends.bind_ok hr
  obtain ⟨rfl, rfl, -⟩ := dirlookup_same h hdp hdt hlook
  cases found with
  | some x =>
    obtain ⟨ip, -, hr⟩ := Ends.bind_ok hr
    obtain ⟨-, rfl⟩ := hr
    exact h
  | none =>
    obtain ⟨⟨inum, st₂⟩, ha, hr⟩ := Ends.bind_ok hr
    obtain ⟨ip, hl, hr⟩ := Ends.bind_ok hr
    obtain ⟨hi, hfree, halloc, hinit, hit, -⟩ :=
      touches_ialloc major minor h (mapError_ok ha) (mapError_ok hl)
    have hne : inum ≠ dp := fun hc => hdt (hc ▸ hfree)
    dsimp only at hr
    generalize iupdate sb st₂ inum (ip.init major minor) = st₃ at hr hinit
    generalize ip.init major minor = q at hr hinit hit
    -- the directory is as before, the new inode as `iupdate` left it
    have hd : sb.dinode st₁.data dp = sb.dinode st₃.data dp := by
      rw [hinit.others dp hdp hne.symm, halloc.others dp hdp hne.symm]
    obtain rfl := hinit.inode
    rw [hd] at hdt hr
    obtain ⟨⟨d₂, ip₂, st₄⟩, hdots, hr⟩ := Ends.bind_ok hr
    have hmade : Consistent sb st₄.data ∧ d₂ = sb.dinode st₄.data dp ∧ d₂.type ≠ 0 := by
      split at hdots
      · exact createDots_step hinit.consistent hdp hdt hi hit hne hdots
      · obtain ⟨rfl, rfl, rfl⟩ := hdots
        exact ⟨hinit.consistent, rfl, hdt⟩
    obtain ⟨hcons, rfl, hdt₂⟩ := hmade
    obtain ⟨⟨ok, d₃, st₅⟩, hlink, hr⟩ := Ends.bind_ok hr
    have hstep := step_dirlink hcons hdp hdt₂ hlink
    dsimp only at hr
    split at hr
    · cases hr
    · obtain ⟨-, rfl⟩ := hr
      exact hstep.consistent

theorem step_itrunc (h : Consistent sb st.data) (hi : i < sb.ninodes)
    (ht : (sb.dinode st.data i).type ≠ 0)
    (hr : itrunc sb st i (sb.dinode st.data i) = .ok (ip', st')) :
    Step sb st i ip' st' ∧ ip' = (sb.dinode st.data i).truncated := by
  obtain ⟨d₁, st₁, hrun, hsame, hl, hu⟩ := (h.owned.locked hi ht).itrunc_spec (sb.dinode_fits st.data i)
  obtain ⟨rfl, rfl⟩ := Except.ok.inj (hr.symm.trans hrun)
  refine ⟨⟨⟨h.truncated hsame hl hu, fun j hj hji => ?_,
    fun j hj hji htj => (hsame.untouched h.owned hu hji hj htj).content_eq⟩, ?_, rfl⟩, rfl⟩
  · exact hu.inode_of_ne hji (hsame.inodes j hj)
  · rw [hu.inodes, if_pos rfl]

/-- An inode without blocks is given back. -/
theorem touches_clear (h : Consistent sb st.data) (hi : i < sb.ninodes)
    (hnone : ∀ s, slotVal st.data (sb.dinode st.data i) s = 0) :
    Touches sb st i (iupdate sb st i (sb.dinode st.data i).clear)
      ∧ (sb.dinode (iupdate sb st i (sb.dinode st.data i).clear).data i).type = 0 := by
  have hfits := sb.dinode_fits st.data i
  have hu : Updated sb st.data (iupdate sb st i (sb.dinode st.data i).clear).data i
      (sb.dinode st.data i).clear := iupdate_spec
    ⟨Nat.pow_pos (by decide), hfits.major, hfits.minor, hfits.nlink, hfits.size, hfits.addrs⟩ hi
  have hsame : SameData sb st.data st.data := ⟨fun _ _ => rfl, fun _ _ => rfl⟩
  have h₀ : Owned sb st.data (update (sb.dinode st.data) i (sb.dinode st.data i)) := by
    rw [update_eq_self]
    exact h.owned
  have howned := (hu.opSpec_empty h.owned hsame h₀ (fun s => ?_) fun s => hnone s).owned
  · have hself : (sb.dinode (iupdate sb st i (sb.dinode st.data i).clear).data i).type = 0 := by
      rw [hu.inodes, if_pos rfl]
      rfl
    have hother : ∀ j < sb.ninodes, j ≠ i →
        sb.dinode (iupdate sb st i (sb.dinode st.data i).clear).data j = sb.dinode st.data j :=
      fun j _ hji => by rw [hu.inodes, if_neg hji]
    have huntouched : ∀ j < sb.ninodes, j ≠ i → (sb.dinode st.data j).type ≠ 0 →
        Untouched sb st.data (iupdate sb st i (sb.dinode st.data i).clear).data j :=
      fun j hj hji htj => hsame.untouched h.owned hu hji hj htj
    refine ⟨⟨?_, hother, fun j hj hji htj => (huntouched j hj hji htj).content_eq⟩, hself⟩
    exact h.of_untouched (i := i) howned huntouched (fun j hj hji => by rw [hother j hj hji])
      (fun hc => absurd hself hc) fun hc => absurd hself hc
  · rw [update_eq_self, slots, hnone]
    exact ite_self none

/-- `iput` of the last reference: an inode without links is freed. -/
theorem touches_iputLast (h : Consistent sb st.data) (hi : i < sb.ninodes)
    (ht : (sb.dinode st.data i).type ≠ 0)
    (hr : iputLast sb st i (sb.dinode st.data i) = .ok st') :
    st' = st ∨ Touches sb st i st' ∧ (sb.dinode st.data i).nlink = 0 ∧ (sb.dinode st'.data i).type = 0 := by
  rw [iputLast] at hr
  split at hr
  · rename_i hz
    obtain ⟨⟨ip₁, st₁⟩, htr, hr⟩ := Ends.bind_ok hr
    obtain ⟨hstep, htrunc⟩ := step_itrunc h hi ht (mapError_ok htr)
    cases hr
    have hnone : ∀ s, slotVal st₁.data (sb.dinode st₁.data i) s = 0 := fun s => by
      rw [← hstep.inode, htrunc]
      exact slotVal_truncated ..
    rw [hstep.inode]
    obtain ⟨hclear, htype⟩ := touches_clear hstep.consistent hi hnone
    exact .inr ⟨hstep.toTouches.trans hclear, hz, htype⟩
  · grind

theorem consistent_iputLast (h : Consistent sb st.data) (hi : i < sb.ninodes)
    (ht : (sb.dinode st.data i).type ≠ 0)
    (hr : iputLast sb st i (sb.dinode st.data i) = .ok st') : Consistent sb st'.data := by
  rcases touches_iputLast h hi ht hr with rfl | ⟨htouch, -⟩
  · exact h
  · exact htouch.consistent

/-- The end of `sys_unlink`: the entry is cleared, the counts go down. -/
theorem unlink_consistent {dp : Nat} {last r : Bool} (h : Consistent sb st.data)
    (hdp : dp < sb.ninodes)
    (hrange : ∀ off inum d' st₁, dirlookup sb st (sb.dinode st.data dp) name
      = .ok (some (off, inum), d', st₁) → inum < sb.ninodes)
    (hr : unlink sb st dp name last = .ok (r, st')) : Consistent sb st'.data := by
  obtain ⟨d, hl, hr⟩ := Ends.bind_ok hr
  obtain ⟨rfl, hdt⟩ := ilock_ok (mapError_ok hl)
  dsimp only at hr
  split at hr
  · obtain ⟨-, rfl⟩ := hr
    exact h
  obtain ⟨⟨found, d₁, st₁⟩, hlook, hr⟩ := Ends.bind_ok hr
  obtain ⟨rfl, rfl, hoff⟩ := dirlookup_same h hdp hdt hlook
  rcases found with _ | ⟨off, inum⟩
  · obtain ⟨-, rfl⟩ := hr
    exact h
  have hi := hrange off inum _ _ hlook
  have hoff := hoff _ rfl
  dsimp only at hr
  split at hr
  · obtain ⟨-, rfl⟩ := hr
    exact h
  rename_i hne
  obtain ⟨ip, hl, hr⟩ := Ends.bind_ok hr
  obtain ⟨rfl, hit⟩ := ilock_ok (mapError_ok hl)
  split at hr
  · cases hr
  obtain ⟨⟨empty, ip₁, st₂⟩, hempty, hr⟩ := Ends.bind_ok hr
  have hsame : ip₁ = sb.dinode st₁.data inum ∧ st₂ = st₁ := by
    split at hempty
    · exact isdirempty_same h hi hit hempty
    · grind
  obtain ⟨rfl, rfl⟩ := hsame
  dsimp only at hr
  split at hr
  · obtain ⟨-, rfl⟩ := hr
    exact h
  obtain ⟨⟨n, d₂, st₃⟩, hw, hr⟩ := Ends.bind_ok hr
  have h₁ := step_writeDe h hdp hdt hoff hw
  dsimp only at hr
  split at hr
  · cases hr
  -- the directory's own count goes down with a directory
  have h₂ : ∃ d₄, Step sb st₂ dp d₄ (if (sb.dinode st₂.data inum).type = FileType.dir.code
      then iupdate sb st₃ dp (addLinks d₂ (-1)) else st₃) := by
    split
    · rw [h₁.inode]
      exact ⟨_, h₁.trans (step_addLinks h₁.consistent hdp (h₁.type_ne hdt) (-1))⟩
    · exact ⟨_, h₁⟩
  generalize (if (sb.dinode st₂.data inum).type = FileType.dir.code
    then iupdate sb st₃ dp (addLinks d₂ (-1)) else st₃) = st₄ at hr h₂
  obtain ⟨d₄, h₂⟩ := h₂
  have hino := h₂.others inum hi hne
  rw [← hino] at hr
  have h₃ := step_addLinks h₂.consistent hi (h₂.other_type_ne hi hne hit) (-1)
  have ht₃ := h₃.type_ne (h₂.other_type_ne hi hne hit)
  generalize iupdate sb st₄ inum (addLinks (sb.dinode st₄.data inum) (-1)) = st₅ at hr h₃ ht₃
  rw [h₃.inode] at hr
  obtain ⟨st₆, hput, hr⟩ := Ends.bind_ok hr
  obtain ⟨-, rfl⟩ := hr
  split at hput
  · exact consistent_iputLast h₃.consistent hi ht₃ hput
  · cases hput
    exact h₃.consistent

end Ops

/-! ## Runs -/

/-- The operations on the disk. -/
inductive DiskOp where
  | writei (inum : Nat) (src : Source) (off n : Nat)
  | itrunc (inum : Nat)
  | dirlink (dp : Nat) (name : List Byte) (inum : Nat)
  | create (dp : Nat) (name : List Byte) (type : FileType) (major minor : Nat)
  | unlink (dp : Nat) (name : List Byte) (last : Bool)

def diskOp (sb : Superblock) (st : FsState) : DiskOp → Except DirPanic FsState
  | .writei inum src off n => do
      let ip ← (ilock sb st inum).mapError .fs
      let (_, _, st) ← (Xv6.writei sb st inum ip src off n).mapError .fs
      .ok st
  | .itrunc inum => do
      let ip ← (ilock sb st inum).mapError .fs
      let (_, st) ← (Xv6.itrunc sb st inum ip).mapError .fs
      .ok st
  | .dirlink dp name inum => do
      let d ← (ilock sb st dp).mapError .fs
      let (_, _, st) ← Dir.dirlink sb st dp d name inum
      .ok st
  | .create dp name type major minor => do
      let (_, st) ← Dir.create sb st dp name type major minor
      .ok st
  | .unlink dp name last => do
      let (_, st) ← Dir.unlink sb st dp name last
      .ok st

/-- A run stops at a panic. -/
def diskStep (sb : Superblock) (st : FsState) (op : DiskOp) : Option FsState := (diskOp sb st op).toOption

/-- The inodes an operation is about exist, the one an entry to be
removed names included, and the numbers it is given are `uint`s. -/
def InRange (sb : Superblock) (st : FsState) : DiskOp → Prop
  | .writei inum _ off n => inum < sb.ninodes ∧ off < 2 ^ 32 ∧ n < 2 ^ 32
  | .itrunc inum => inum < sb.ninodes
  | .dirlink dp _ _ => dp < sb.ninodes
  | .create dp _ _ _ _ => dp < sb.ninodes
  | .unlink dp name _ => dp < sb.ninodes ∧ ∀ off inum d st₁,
      dirlookup sb st (sb.dinode st.data dp) name = .ok (some (off, inum), d, st₁) → inum < sb.ninodes

/-- The blocks that hold the bytes of inode `i` are all there. -/
def HoleFree (sb : Superblock) (d : Disk) (i : Nat) : Prop :=
  (sb.dinode d i).size ≤ MAXFILE * BSIZE
    ∧ ∀ bn < ((sb.dinode d i).size + BSIZE - 1) / BSIZE, slotVal d (sb.dinode d i) (slotOf bn) ≠ 0

section Runs

variable {sb : Superblock} {st st' : FsState} {i : Nat}

theorem toOption_some {ε α : Type} {x : Except ε α} {a : α} (h : x.toOption = some a) : x = .ok a := by
  cases x with
  | error e => cases h
  | ok b => exact congrArg Except.ok (Option.some.inj h)

theorem diskStep_consistent {op : DiskOp} (h : Consistent sb st.data) (hop : InRange sb st op)
    (hs : diskStep sb st op = some st') : Consistent sb st'.data := by
  have hr := toOption_some hs
  cases op with
  | writei inum src off n =>
    obtain ⟨hi, hoff, hn⟩ := hop
    obtain ⟨ip, hl, hr⟩ := Ends.bind_ok hr
    obtain ⟨rfl, ht⟩ := ilock_ok (mapError_ok hl)
    obtain ⟨⟨r, ip', st₁⟩, hw, hr⟩ := Ends.bind_ok hr
    cases hr
    exact (step_writei h hi ht hoff hn (mapError_ok hw)).consistent
  | itrunc inum =>
    obtain ⟨ip, hl, hr⟩ := Ends.bind_ok hr
    obtain ⟨rfl, ht⟩ := ilock_ok (mapError_ok hl)
    obtain ⟨⟨ip', st₁⟩, htr, hr⟩ := Ends.bind_ok hr
    cases hr
    exact (step_itrunc h hop ht (mapError_ok htr)).1.consistent
  | dirlink dp name inum =>
    obtain ⟨d, hl, hr⟩ := Ends.bind_ok hr
    obtain ⟨rfl, ht⟩ := ilock_ok (mapError_ok hl)
    obtain ⟨⟨ok, d', st₁⟩, hlink, hr⟩ := Ends.bind_ok hr
    cases hr
    exact (step_dirlink h hop ht hlink).consistent
  | create dp name type major minor =>
    obtain ⟨⟨r, st₁⟩, hc, hr⟩ := Ends.bind_ok hr
    cases hr
    exact create_consistent h hop hc
  | unlink dp name last =>
    obtain ⟨⟨r, st₁⟩, hu, hr⟩ := Ends.bind_ok hr
    cases hr
    exact unlink_consistent h hop.1 hop.2 hu

theorem holeFree_of_consistent (h : Consistent sb st.data) (hi : i < sb.ninodes)
    (ht : (sb.dinode st.data i).type ≠ 0) : HoleFree sb st.data i := by
  refine ⟨h.sized i hi ht, fun bn hbn => ?_⟩
  have hk : bn * BSIZE < (sb.dinode st.data i).size := by grind
  have hmapped := h.mapped i hi ht _ hk
  rwa [Nat.mul_div_cancel _ (by decide)] at hmapped

/-- From a consistent file system every inode in use stays free of holes,
and a read of one finds all its blocks: it leaves the disk and the log
alone and does not panic. -/
theorem files_have_no_holes {ops : List DiskOp} (h : Consistent sb st.data)
    (hops : Along (diskStep sb) (InRange sb) st ops) (hrun : run (diskStep sb) st ops = some st')
    (hi : i < sb.ninodes) (ht : (sb.dinode st'.data i).type ≠ 0) :
    HoleFree sb st'.data i
      ∧ ∀ (dst : Target) (off n : Nat), off < 2 ^ 32 → n < 2 ^ 32 →
        ∃ r bytes, readi sb st' (sb.dinode st'.data i) dst off n
          = .ok (r, bytes, sb.dinode st'.data i, st') := by
  have h' : Consistent sb st'.data :=
    run_invariant_along (I := fun st => Consistent sb st.data) diskStep_consistent h hops hrun
  refine ⟨holeFree_of_consistent h' hi ht, fun dst off n hoff hn => ?_⟩
  obtain ⟨m, -, hread⟩ := h'.readi_reach dst hi ht hoff hn
  exact ⟨_, _, hread⟩

end Runs

/-- A user buffer of ten bytes. -/
def tenBytes : Source := fun j => if j < 10 then some 7 else none

/-- A write into the one block of the file whose copy fails. -/
theorem files_have_no_holes_short :
    ∃ st', run (diskStep fullSuper) fullImage [.writei 1 tenBytes 1000 24] = some st'
      ∧ HoleFree fullSuper st'.data 1 := by
  have ht : (fullSuper.dinode fullImage.data 1).type ≠ 0 := by rw [fullImage_file]; decide
  have hlock : ilock fullSuper fullImage 1 = .ok (fullSuper.dinode fullImage.data 1) := by
    rw [ilock, if_neg ht]
  rcases (fullImage_consistent.owned.locked (by decide) ht).writei_accepted tenBytes (n := 24)
    (fullSuper.dinode_fits _ 1) (by decide)
    (show ¬writeRefused _ 1000 24 by rw [fullImage_file]; unfold writeRefused; decide) with
    ⟨tot, ip', st', d₁, ip₁, hw, -⟩ | ⟨-, hneed⟩
  · have hstep : diskStep fullSuper fullImage (.writei 1 tenBytes 1000 24) = some st' := by
      simp only [diskStep, diskOp, hlock, hw, Except.mapError, bind, Except.bind, Except.toOption]
    have hrun := run_cons.mpr ⟨st', hstep, run_nil (diskStep fullSuper) st'⟩
    have hops : Along (diskStep fullSuper) (InRange fullSuper) fullImage [.writei 1 tenBytes 1000 24] :=
      ⟨⟨by decide, by decide, by decide⟩, fun _ _ => trivial⟩
    have hstep' := step_writei fullImage_consistent (by decide) ht (by decide) (by decide) hw
    have ht' := hstep'.type_ne ht
    exact ⟨st', hrun, (files_have_no_holes fullImage_consistent hops hrun (by decide) ht').1⟩
  · refine absurd hneed ?_
    rw [fullImage_freeBlocks, fullImage_file]
    show ¬0 < blocksNeeded fullImage.data fullFile 0 1
    simp only [blocksNeeded, fullFile_slotVal]
    decide

/-! ## A block in two slots -/

/-- A file of 13 blocks with block 5 in every slot: its bytes are the
entries of its indirect block. -/
def sharedFile : Inode := { fullFile with size := 13 * BSIZE, addrs := fun _ => 5 }

def sharedImage : FsState where
  data := fun b =>
    if b = 2 then sharedFile.encode (ByteVec.fill BSIZE 0) 1
    else if b = 4 then (ByteVec.fill BSIZE 0).patch 0 [0x3f]
    else if b = 5 then (ByteVec.fill BSIZE 0).patch 0 [5]
    else ByteVec.fill BSIZE 0
  logged := []

instance (sb : Superblock) (d : Disk) (i : Nat) : Decidable (HoleFree sb d i) :=
  inferInstanceAs (Decidable (_ ∧ _))

/-- The file has no holes until one of its blocks is written. -/
theorem shared_block_digs_hole :
    (∀ i < fullSuper.ninodes, HoleFree fullSuper sharedImage.data i)
      ∧ ∃ st', run (diskStep fullSuper) sharedImage [.writei 1 (fun _ => some 0) 0 4] = some st'
        ∧ (fullSuper.dinode st'.data 1).type ≠ 0 ∧ ¬HoleFree fullSuper st'.data 1 := by
  have hfree : ∀ i < 16, HoleFree fullSuper sharedImage.data i := by decide +kernel
  have hrun : (run (diskStep fullSuper) sharedImage [.writei 1 (fun _ => some 0) 0 4]).any
      (fun st' => (fullSuper.dinode st'.data 1).type ≠ 0 ∧ ¬HoleFree fullSuper st'.data 1) = true := by
    decide +kernel
  obtain ⟨st', hst, hhole⟩ := (Option.any_eq_true ..).mp hrun
  exact ⟨hfree, st', hst, of_decide_eq_true hhole⟩

end Xv6.Dir
