import Xv6.FsTrunc
import Xv6.FsWrite

/-!
# Block ownership over all operations

The operations on the blocks of the file system, each from `ilock` to
the `iupdate` that ends it: creating an inode, writing, truncating,
changing a link count, and the `iput` of the last reference. Each
leaves the on-disk inodes exact owners of the used data blocks, so every
sequence of them does. The panics left are the ones for a full disk, a
full inode table and a free inode: `bfree` never meets a free block.
-/

namespace Xv6

open Function List Nat

/-! ## Writing the inode back -/

section Writeback

variable {sb : Superblock} {d d₁ d' : Disk} {ino : Nat → Inode} {i j s : Nat} {ip ip' : Inode}

/-- The inode of a call that has just locked it. -/
theorem Owned.locked (h : Owned sb d (sb.dinode d)) (hi : i < sb.ninodes)
    (ht : (sb.dinode d i).type ≠ 0) : Locked sb d (sb.dinode d) i (sb.dinode d i) :=
  ⟨by rwa [update_eq_self], hi, ht⟩

/-- `iupdate` makes the disk agree with the locked inode. -/
theorem Updated.slots_eq (hu : Updated sb d d' i ip') (h : Owned sb d (update ino i ip'))
    (hino : ∀ j < sb.ninodes, sb.dinode d j = ino j) (x : Nat × Nat) :
    slots sb d' (sb.dinode d') x = slots sb d (update ino i ip') x := by
  refine slots_other h (fun hx => ?_) fun a ha _ _ _ => hu.frame a ha.1
  rw [hu.inodes]
  by_cases hxi : x.1 = i
  · rw [if_pos hxi, hxi, update_self]
  · grind

theorem Updated.owned (hu : Updated sb d d' i ip') (h : Owned sb d (update ino i ip'))
    (hino : ∀ j < sb.ninodes, sb.dinode d j = ino j) : Owned sb d' (sb.dinode d') := by
  refine ⟨h.exact.congr (hu.slots_eq h hino) fun c => ?_, fun c hc => ?_⟩
  · unfold Superblock.Used
    rw [hu.bits]
  · rw [hu.bits]
    exact h.metaUsed c hc

/-- An inode without blocks owns nothing, whatever its type. -/
theorem Owned.update_empty (h : Owned sb d ino) (hold : ∀ s, slots sb d ino (i, s) = none)
    (hnew : ∀ s, slotVal d ip' s = 0) : Owned sb d (update ino i ip') := by
  refine ⟨h.exact.congr (fun x => ?_) fun _ => Iff.rfl, h.metaUsed⟩
  obtain ⟨j, s⟩ := x
  by_cases hj : j = i
  · subst hj
    rw [hold s, slots, update_self, hnew s]
    exact ite_self none
  · exact slots_other h (fun _ => update_of_ne hj ..) fun _ _ _ _ _ => rfl

end Writeback

/-! ## The blocks of the other inodes -/

section Others

variable {sb : Superblock} {d d' : Disk} {ino : Nat → Inode} {i j : Nat} {ip ip' : Inode}

/-- Growing one file leaves every block of another alone. -/
theorem Grows.other_block (hg : Grows sb d ip d' ip') (h : Locked sb d ino i ip) (hji : j ≠ i)
    (hj : j < sb.ninodes) (ht : (ino j).type ≠ 0) {s : Nat} (hne : slotVal d (ino j) s ≠ 0) :
    d' (slotVal d (ino j) s) = d (slotVal d (ino j) s) := by
  have hup : update ino i ip j = ino j := update_of_ne hji ..
  have hused := h.owned.isUsed (s := s) hj (hup ▸ ht) (hup ▸ hne)
  rw [hup] at hused
  refine hg.frame _ hused fun t heq => hji ?_
  have hinj := h.owned.slot_inj (s := s) (j := i) (t := t) hj (hup ▸ ht) (hup ▸ hne) h.lt
    h.type_update
  rw [update_self, hup] at hinj
  exact (hinj heq).1.symm

theorem Grows.other_slotVal (hg : Grows sb d ip d' ip') (h : Locked sb d ino i ip) (hji : j ≠ i)
    (hj : j < sb.ninodes) (ht : (ino j).type ≠ 0) (s : Nat) :
    slotVal d' (ino j) s = slotVal d (ino j) s := by
  refine slotVal_congr rfl fun hne => ?_
  have := hg.other_block h hji hj ht (s := NDIRECT) (slotVal_ind ▸ hne)
  rwa [slotVal_ind] at this

/-- Where a block is named after a growth step. -/
theorem Grows.slots_cases (hg : Grows sb d ip d' ip') (h : Locked sb d ino i ip) {x : Nat × Nat}
    {b : Nat} (hx : slots sb d' (update ino i ip') x = some b) :
    slots sb d (update ino i ip) x = some b ∨ ¬sb.Used d b := by
  obtain ⟨j, s⟩ := x
  obtain ⟨hj, ht, hval, hb⟩ := slots_eq_some.mp hx
  by_cases hji : j = i
  · subst hji
    rw [update_self] at ht hval
    by_cases hs : slotVal d ip s = 0
    · right
      rw [← hval]
      exact hg.fresh s hs (hval ▸ hb)
    · left
      rw [slots_eq_some, update_self]
      exact ⟨hj, h.type, (hg.kept s hs).symm.trans hval, hb⟩
  · rw [update_of_ne hji] at ht hval
    left
    rw [slots_eq_some, update_of_ne hji]
    exact ⟨hj, ht, (hg.other_slotVal h hji hj ht s).symm.trans hval, hb⟩

end Others

/-! ## `writei` -/

section Writei

variable {sb : Superblock} {st : FsState} {ino : Nat → Inode} {i off n : Nat} {ip : Inode}
  {src : Source}

theorem Locked.addr_lt {d : Disk} (h : Locked sb d ino i ip) (k : Fin (NDIRECT + 1)) :
    ip.addrs k < 256 ^ 4 := by
  rw [← slotVal_direct (d := d)]
  by_cases hz : slotVal d ip k = 0
  · rw [hz]
    exact Nat.pow_pos (by decide)
  · exact (h.isUsed hz).1.lt_word

/-- The requests `writei` refuses. -/
def writeRefused (ip : Inode) (off n : Nat) : Prop :=
  off > ip.size ∨ 2 ^ 32 ≤ off + n ∨ off + n > MAXFILE * BSIZE

theorem writei_refused (hoff : off < 2 ^ 32) (hn : n < 2 ^ 32) (hr : writeRefused ip off n) :
    writei sb st i ip src off n = .ok (-1, ip, st) := by
  unfold writei
  by_cases h1 : off > ip.size ∨ (off + n) % 2 ^ 32 < off
  · rw [if_pos h1]
  · rw [if_neg h1, if_pos]
    rcases hr with hr | hr | hr <;> omega

/-- The state after an accepted write that moved `tot` bytes: the loop,
then `ip->size` and `iupdate`. -/
structure Written (sb : Superblock) (i : Nat) (src : Source) (off n : Nat) (d : Disk) (ip : Inode)
    (tot : Nat) (d' : Disk) (ip' : Inode) (d₁ : Disk) (ip₁ : Inode) : Prop where
  wrote : Wrote sb (sb.dinode d) i src n 0 off d ip tot (off + tot) d₁ ip₁
  size : ip'.size = max ip.size (off + tot)
  fields : ip' = { ip₁ with size := ip'.size }
  updated : Updated sb d₁ d' i ip'

/-- The last lines of `writei`: the size, and `iupdate`. -/
theorem Wrote.written {st₁ : FsState} {ip₁ : Inode} {d : Disk} {tot : Nat} (hfits : ip.Fits)
    (hn : n < 2 ^ 32) (hr : ¬writeRefused ip off n)
    (hw : Wrote sb (sb.dinode d) i src n 0 off d ip tot (off + tot) st₁.data ip₁) {ip' : Inode}
    (hip' : ip' = if off + tot > ip₁.size then { ip₁ with size := off + tot } else ip₁) :
    Written sb i src off n d ip tot (iupdate sb st₁ i ip').data ip' st₁.data ip₁ := by
  unfold writeRefused at hr
  have hsize := hw.grows.size_eq
  have hle := hw.le_n
  have hfits₁ : ip₁.Fits := by
    have haddr := hw.locked.addr_lt
    rw [hw.grows.fields] at haddr ⊢
    exact ⟨hfits.type, hfits.major, hfits.minor, hfits.nlink, hfits.size, haddr⟩
  subst hip'
  refine ⟨hw, ?_, ?_, iupdate_spec ?_ hw.locked.lt⟩
  · grind
  · split
    · rfl
    · rfl
  · split
    · refine ⟨hfits₁.type, hfits₁.major, hfits₁.minor, hfits₁.nlink, ?_, hfits₁.addrs⟩
      show off + tot < 4294967296
      omega
    · exact hfits₁

theorem Locked.writei_accepted (h : Locked sb st.data (sb.dinode st.data) i ip) (src : Source)
    (hfits : ip.Fits) (hn : n < 2 ^ 32) (hr : ¬writeRefused ip off n) :
    (∃ tot ip' st' d₁ ip₁, writei sb st i ip src off n = .ok ((tot : Nat), ip', st')
      ∧ Written sb i src off n st.data ip tot st'.data ip' d₁ ip₁)
    ∨ writei sb st i ip src off n = .error .outOfBlocks
      ∧ (sb.freeBlocks st.data).card < writeNeed st.data ip off (off + n) := by
  have hr' := hr
  unfold writeRefused at hr'
  unfold writei
  rw [if_neg (by omega), if_neg (by omega)]
  rcases h.writeLoop_spec src (zero_le n)
      (show off + (n - 0) ≤ MAXFILE * BSIZE by omega) with ⟨tot, off', ip₁, st₁, hloop, hw⟩ | ⟨hloop, hfull⟩
  · have hpos : off' = off + tot := by
      have := hw.pos
      omega
    subst hpos
    simp only [hloop, bind, Except.bind]
    exact .inl ⟨tot, _, _, st₁.data, ip₁, rfl, hw.written hfits hn hr rfl⟩
  · simp_all [hloop, bind, Except.bind]

variable {tot : Nat} {d d' d₁ : Disk} {ip' ip₁ : Inode}

theorem Written.owned_update (hw : Written sb i src off n d ip tot d' ip' d₁ ip₁) :
    Locked sb d₁ (sb.dinode d) i ip' :=
  hw.wrote.locked.of_addrs (by rw [hw.fields]) (by rw [hw.fields])

theorem Written.owned (hw : Written sb i src off n d ip tot d' ip' d₁ ip₁) :
    Owned sb d' (sb.dinode d') :=
  hw.updated.owned hw.owned_update.owned hw.wrote.grows.inodes

end Writei

/-! ## The operations -/

inductive FsOp
  /-- `create`: `ialloc`, then the fields of the new inode -/
  | create (type : FileType) (major minor : Nat)
  | write (inum : Nat) (src : Source) (off n : Nat)
  | trunc (inum : Nat)
  /-- `ip->nlink++` or `ip->nlink--`, and `iupdate` -/
  | setLinks (inum nlink : Nat)
  /-- `iput` of the last reference -/
  | iput (inum : Nat)

/-- Inode numbers are in range; offsets and lengths are 32-bit. -/
def FsOp.Valid (sb : Superblock) : FsOp → Prop
  | .create .. => True
  | .write inum _ off n => inum < sb.ninodes ∧ off < 2 ^ 32 ∧ n < 2 ^ 32
  | .trunc inum => inum < sb.ninodes
  | .setLinks inum _ => inum < sb.ninodes
  | .iput inum => inum < sb.ninodes

/-- `ip->major = major; ip->minor = minor; ip->nlink = 1`, all shorts. -/
def Inode.init (ip : Inode) (major minor : Nat) : Inode :=
  { ip with major := major % 2 ^ 16, minor := minor % 2 ^ 16, nlink := 1 }

def Inode.setLinks (ip : Inode) (nlink : Nat) : Inode := { ip with nlink := nlink % 2 ^ 16 }

/-- `ip->type = 0`. -/
def Inode.clear (ip : Inode) : Inode := { ip with type := 0 }

def fsOp (sb : Superblock) (st : FsState) : FsOp → Except FsPanic FsState
  | .create type major minor => do
      let (inum, st) ← ialloc sb st type.code
      let ip ← ilock sb st inum
      .ok (iupdate sb st inum (ip.init major minor))
  | .write inum src off n => do
      let ip ← ilock sb st inum
      let (_, _, st) ← writei sb st inum ip src off n
      .ok st
  | .trunc inum => do
      let ip ← ilock sb st inum
      let (_, st) ← itrunc sb st inum ip
      .ok st
  | .setLinks inum nlink => do
      let ip ← ilock sb st inum
      .ok (iupdate sb st inum (ip.setLinks nlink))
  | .iput inum => do
      let ip ← ilock sb st inum
      if ip.nlink = 0 then do
        let (ip, st) ← itrunc sb st inum ip
        .ok (iupdate sb st inum ip.clear)
      else .ok st

def fsRun (sb : Superblock) (st : FsState) (ops : List FsOp) : Except FsPanic FsState :=
  ops.foldlM (fsOp sb) st

/-- The panics of a full disk, no free inode, and `ilock` of a free one. -/
def FsPanic.Exhausted : FsPanic → Prop
  | .outOfBlocks | .noInodes | .noType => True
  | .freeingFreeBlock | .outOfRange => False

/-- What an operation does: the inodes stay exact owners, and a block
named in a new place was free. -/
structure OpSpec (sb : Superblock) (d d' : Disk) : Prop where
  owned : Owned sb d' (sb.dinode d')
  named : ∀ x b, slots sb d' (sb.dinode d') x = some b →
    slots sb d (sb.dinode d) x = some b ∨ ¬sb.Used d b

section Steps

variable {sb : Superblock} {st : FsState} {i : Nat}

theorem Owned.slots_free {d : Disk} {ino : Nat → Inode} (ht : (ino i).type = 0) (s : Nat) :
    slots sb d ino (i, s) = none := by
  rw [slots, if_neg fun h => h.2 ht]

/-- `iupdate` of an inode with the same blocks. -/
theorem Updated.opSpec_same {d d' : Disk} {ip' : Inode} (hu : Updated sb d d' i ip')
    (h : Owned sb d (sb.dinode d)) (hi : i < sb.ninodes) (ht : (sb.dinode d i).type ≠ 0)
    (haddrs : ip'.addrs = (sb.dinode d i).addrs) (htype : ip'.type = (sb.dinode d i).type) :
    OpSpec sb d d' := by
  have hl := (h.locked hi ht).of_addrs haddrs htype
  refine ⟨hu.owned hl.owned fun _ _ => rfl, fun x b hx => .inl ?_⟩
  rw [hu.slots_eq hl.owned fun _ _ => rfl] at hx
  rw [← hx]
  unfold slots
  by_cases hxi : x.1 = i
  · rw [hxi, update_self, htype, slotVal_congr haddrs fun _ => rfl]
  · rw [update_of_ne hxi]

theorem Updated.trans {d d' d'' : Disk} {ip ip' : Inode} (hu : Updated sb d d' i ip)
    (hu' : Updated sb d' d'' i ip') : Updated sb d d'' i ip' := by
  refine ⟨fun c => (hu'.bits c).trans (hu.bits c), fun j => ?_,
    fun a ha => (hu'.frame a ha).trans (hu.frame a ha)⟩
  rw [hu'.inodes, hu.inodes]
  split
  · rfl
  · rfl

/-- The inode has no block before the `iupdate` and none after. -/
theorem Updated.opSpec_empty {d d₁ d' : Disk} {ip₁ ip' : Inode} (hu : Updated sb d₁ d' i ip')
    (h : Owned sb d (sb.dinode d)) (hsame : SameData sb d d₁)
    (h₁ : Owned sb d₁ (update (sb.dinode d) i ip₁))
    (hold : ∀ s, slots sb d₁ (update (sb.dinode d) i ip₁) (i, s) = none)
    (hnew : ∀ s, slotVal d₁ ip' s = 0) : OpSpec sb d d' := by
  have h₂ := h₁.update_empty hold hnew
  rw [update_idem] at h₂
  refine ⟨hu.owned h₂ hsame.inodes, ?_⟩
  rintro ⟨j, s⟩ b hx
  rw [hu.slots_eq h₂ hsame.inodes] at hx
  by_cases hj : j = i
  · obtain ⟨-, -, hval, hb⟩ := slots_eq_some.mp hx
    grind
  · left
    rw [← hx]
    refine (slots_other h (fun _ => update_of_ne hj ..) fun a ha _ _ _ => ?_).symm
    exact hsame.frame a ha.1

/-- The outcome of an operation. -/
def Outcome (sb : Superblock) (d : Disk) : Except FsPanic FsState → Prop
  | .ok st' => OpSpec sb d st'.data
  | .error e => e.Exhausted

theorem outcome_ilock {inum : Nat} {f : Inode → Except FsPanic FsState}
    (hf : (sb.dinode st.data inum).type ≠ 0 → Outcome sb st.data (f (sb.dinode st.data inum))) :
    Outcome sb st.data (ilock sb st inum >>= f) := by
  cases hl : ilock sb st inum with
  | error e =>
    obtain rfl := ilock_error hl
    exact trivial
  | ok ip =>
    obtain ⟨rfl, ht⟩ := ilock_ok hl
    exact hf ht

theorem Superblock.dinode_fits (sb : Superblock) (d : Disk) (i : Nat) : (sb.dinode d i).Fits :=
  Inode.decode_fits ..

theorem Owned.create_outcome (h : Owned sb st.data (sb.dinode st.data)) (type : FileType)
    (major minor : Nat) : Outcome sb st.data (fsOp sb st (.create type major minor)) := by
  have hcode : type.code < 256 ^ 2 ∧ type.code ≠ 0 := by
    cases type <;> decide
  cases ha : ialloc sb st type.code with
  | error e =>
    obtain rfl := ialloc_error ha
    simp only [fsOp, ha, bind, Except.bind]
    exact trivial
  | ok r =>
    obtain ⟨inum, st₁⟩ := r
    obtain ⟨-, hlt, hfree, hu⟩ := ialloc_ok hcode.1 ha
    have hip : sb.dinode st₁.data inum = Inode.fresh type.code := by
      rw [hu.inodes, if_pos rfl]
    have hlock : ilock sb st₁ inum = .ok (Inode.fresh type.code) := by
      unfold ilock
      rw [hip]
      exact if_neg hcode.2
    simp only [fsOp, ha, hlock, bind, Except.bind]
    have hfits : ((Inode.fresh type.code).init major minor).Fits :=
      ⟨hcode.1, mod_lt _ (by decide), mod_lt _ (by decide),
        (by show 1 < 256 ^ 2; decide), Nat.pow_pos (by decide), fun _ => Nat.pow_pos (by decide)⟩
    have hsame : Owned sb st.data
        (update (sb.dinode st.data) inum (sb.dinode st.data inum)) := by
      rwa [update_eq_self]
    refine (hu.trans (iupdate_spec hfits hlt)).opSpec_empty h ⟨fun _ _ => rfl, fun _ _ => rfl⟩
      hsame (fun s => ?_) fun s => ?_
    · rw [update_eq_self]
      exact Owned.slots_free hfree s
    · unfold slotVal Inode.init Inode.fresh
      simp

theorem Owned.write_outcome (h : Owned sb st.data (sb.dinode st.data)) {inum off n : Nat}
    {src : Source} (hv : (FsOp.write inum src off n).Valid sb) :
    Outcome sb st.data (fsOp sb st (.write inum src off n)) := by
  obtain ⟨hlt, hoff, hn⟩ := hv
  refine outcome_ilock fun ht => ?_
  have hl := h.locked hlt ht
  by_cases hr : writeRefused (sb.dinode st.data inum) off n
  · simp only [bind, Except.bind, writei_refused hoff hn hr]
    exact ⟨h, fun x b hx => .inl hx⟩
  · rcases hl.writei_accepted src (sb.dinode_fits ..) hn hr with
      ⟨tot, ip', st', d₁, ip₁, hw, hspec⟩ | ⟨hw, -⟩
    · simp only [bind, Except.bind, hw]
      refine ⟨hspec.owned, fun x b hx => ?_⟩
      rw [hspec.updated.slots_eq hspec.owned_update.owned hspec.wrote.grows.inodes] at hx
      have hx₁ : slots sb d₁ (update (sb.dinode st.data) inum ip₁) x = some b := by
        rw [← hx]
        unfold slots
        by_cases hxi : x.1 = inum
        · rw [hxi, update_self, update_self, hspec.fields]
          rfl
        · grind
      have := hspec.wrote.grows.slots_cases hl hx₁
      rwa [update_eq_self] at this
    · simp only [bind, Except.bind, hw]
      exact trivial

theorem Owned.trunc_outcome (h : Owned sb st.data (sb.dinode st.data)) {inum : Nat}
    (hlt : inum < sb.ninodes) : Outcome sb st.data (fsOp sb st (.trunc inum)) := by
  refine outcome_ilock fun ht => ?_
  obtain ⟨d₁, st', hr, hsame, hl, hu⟩ := (h.locked hlt ht).itrunc_spec (sb.dinode_fits ..)
  simp only [bind, Except.bind, hr]
  refine hu.opSpec_empty h hsame hl.owned (fun s => ?_) (slotVal_truncated _ _)
  rw [slots, update_self, slotVal_truncated]
  exact ite_self none

theorem Owned.iput_outcome (h : Owned sb st.data (sb.dinode st.data)) {inum : Nat}
    (hlt : inum < sb.ninodes) : Outcome sb st.data (fsOp sb st (.iput inum)) := by
  refine outcome_ilock fun ht => ?_
  by_cases hn : (sb.dinode st.data inum).nlink = 0
  · have hfits := sb.dinode_fits st.data inum
    obtain ⟨d₁, st', hr, hsame, hl, hu⟩ := (h.locked hlt ht).itrunc_spec hfits
    rw [if_pos hn]
    simp only [bind, Except.bind, hr]
    have ht0 := Inode.truncated_fits hfits
    have hfits' : (sb.dinode st.data inum).truncated.clear.Fits :=
      ⟨Nat.pow_pos (by decide), ht0.major, ht0.minor, ht0.nlink, ht0.size, ht0.addrs⟩
    refine (hu.trans (iupdate_spec hfits' hlt)).opSpec_empty h hsame hl.owned (fun s => ?_)
      fun s => ?_
    · rw [slots, update_self, slotVal_truncated]
      exact ite_self none
    · exact slotVal_truncated d₁ (sb.dinode st.data inum) s
  · rw [if_neg hn]
    exact ⟨h, fun x b hx => .inl hx⟩

theorem Owned.setLinks_outcome (h : Owned sb st.data (sb.dinode st.data)) {inum : Nat}
    (nlink : Nat) (hlt : inum < sb.ninodes) :
    Outcome sb st.data (fsOp sb st (.setLinks inum nlink)) := by
  refine outcome_ilock fun ht => ?_
  have hfits := sb.dinode_fits st.data inum
  refine Updated.opSpec_same (iupdate_spec ?_ hlt) h hlt ht rfl rfl
  exact ⟨hfits.type, hfits.major, hfits.minor, mod_lt _ (by decide), hfits.size, hfits.addrs⟩

/-- Every operation, from every consistent state. -/
theorem Owned.fsOp_outcome (h : Owned sb st.data (sb.dinode st.data)) {op : FsOp}
    (hv : op.Valid sb) : Outcome sb st.data (fsOp sb st op) := by
  cases op with
  | create type major minor => exact h.create_outcome type major minor
  | write inum src off n => exact h.write_outcome hv
  | trunc inum => exact h.trunc_outcome hv
  | setLinks inum nlink => exact h.setLinks_outcome nlink hv
  | iput inum => exact h.iput_outcome hv

end Steps

/-! ## Every sequence of operations -/

section Runs

variable {sb : Superblock} {st st' : FsState} {ops : List FsOp}

theorem Owned.fsRun_outcome (h : Owned sb st.data (sb.dinode st.data))
    (hops : ∀ op ∈ ops, op.Valid sb) :
    (∀ st', fsRun sb st ops = .ok st' → Owned sb st'.data (sb.dinode st'.data))
      ∧ ∀ e, fsRun sb st ops = .error e → e.Exhausted := by
  induction ops generalizing st with
  | nil =>
    refine ⟨fun st' hr => ?_, fun e hr => by cases hr⟩
    cases hr
    exact h
  | cons op ops ih =>
    have hstep := h.fsOp_outcome (hops op mem_cons_self)
    unfold fsRun
    rw [foldlM_cons]
    cases hop : fsOp sb st op with
    | error e =>
      rw [hop] at hstep
      refine ⟨fun st' hr => (by cases hr), fun e' hr => ?_⟩
      obtain rfl := Except.error.inj hr
      exact hstep
    | ok st₁ =>
      rw [hop] at hstep
      exact ih hstep.owned fun op hmem => hops op (mem_cons_of_mem _ hmem)

/-- An image without files. -/
theorem Owned.of_empty {d : Disk} (hfree : ∀ i < sb.ninodes, (sb.dinode d i).type = 0)
    (hbits : ∀ b, sb.IsData b → sb.bit d b = false) (hmeta : sb.MetaUsed d) :
    Owned sb d (sb.dinode d) := by
  have hnone : ∀ x, slots sb d (sb.dinode d) x = none := fun x => by
    rw [slots, if_neg fun h => h.2 (hfree x.1 h.1)]
  refine ⟨⟨fun {x b} hx => ?_, fun {x y b} hx => ?_, fun {b} hb => ?_⟩, hmeta⟩
  · rw [hnone] at hx
    cases hx
  · rw [hnone] at hx
    cases hx
  · have := hb.2
    rw [hbits b hb.1] at this
    cases this

/-- **Disk blocks have exactly one owner.** After every sequence of
operations from a consistent image, a block named by an allocated inode,
directly or in its indirect block, is a data block marked used and is
named nowhere else; every data block marked used is named; the next
operation names in new places only data blocks that were free; and no
sequence runs into `bfree`'s or `bmap`'s panic. -/
theorem blocks_owned_exactly (h : Owned sb st.data (sb.dinode st.data))
    (hops : ∀ op ∈ ops, op.Valid sb) :
    (∀ st', fsRun sb st ops = .ok st' →
      (∀ i s b, slots sb st'.data (sb.dinode st'.data) (i, s) = some b →
        sb.IsData b ∧ sb.bit st'.data b = true
          ∧ ∀ j t, slots sb st'.data (sb.dinode st'.data) (j, t) = some b → j = i ∧ t = s)
      ∧ (∀ b, sb.IsData b → sb.bit st'.data b = true →
        ∃ i s, slots sb st'.data (sb.dinode st'.data) (i, s) = some b)
      ∧ ∀ op st'', op.Valid sb → fsOp sb st' op = .ok st'' →
        ∀ i s b, slots sb st''.data (sb.dinode st''.data) (i, s) = some b →
          slots sb st'.data (sb.dinode st'.data) (i, s) = some b
            ∨ sb.IsData b ∧ sb.bit st'.data b = false)
    ∧ ∀ e, fsRun sb st ops = .error e → e ≠ .freeingFreeBlock ∧ e ≠ .outOfRange := by
  obtain ⟨hok, herr⟩ := h.fsRun_outcome hops
  refine ⟨fun st' hr => ⟨fun i s b hb => ?_, fun b hdata hbit => ?_, fun op st'' hv hop i s b hb => ?_⟩,
    fun e hr => ?_⟩
  · have howned := hok st' hr
    obtain ⟨hdata, hbit⟩ := howned.exact.mem hb
    exact ⟨hdata, hbit, fun j t hj => Prod.mk.inj (howned.exact.inj hj hb)⟩
  · obtain ⟨x, hx⟩ := (hok st' hr).exact.cover ⟨hdata, hbit⟩
    exact ⟨x.1, x.2, hx⟩
  · have hspec := (hok st' hr).fsOp_outcome hv
    rw [hop] at hspec
    refine (hspec.named (i, s) b hb).imp_right fun hnot => ?_
    have hdata := (hspec.owned.exact.mem hb).1
    exact ⟨hdata, Bool.eq_false_iff.mpr fun hbit => hnot ⟨hdata, hbit⟩⟩
  · have := herr e hr
    constructor
    · rintro rfl
      exact this
    · rintro rfl
      exact this

/-- A disk of eight blocks: inodes in block 2, bitmap in block 4, data
from block 5 on. -/
def tinySuper : Superblock where
  size := 8
  ninodes := 16
  nlog := 0
  logstart := 2
  inodestart := 2
  bmapstart := 4
  log_fit := by decide
  inodes_fit := by decide
  bitmap_fit := by decide
  size_lt := by decide

def tinyImage : FsState where
  data := fun b => if b = 4 then (ByteVec.fill BSIZE 0).patch 0 [0x1f] else ByteVec.fill BSIZE 0
  logged := []

theorem tinyImage_owned : Owned tinySuper tinyImage.data (tinySuper.dinode tinyImage.data) := by
  refine Owned.of_empty (fun i hi => ?_) (fun b hb => ?_) (by unfold Superblock.MetaUsed; decide)
  · have hblk : tinyImage.data (tinySuper.iblock i) = ByteVec.fill BSIZE 0 := by
      have hi' : i < 16 := hi
      refine if_neg ?_
      show i / 16 + 2 ≠ 4
      omega
    rw [Superblock.dinode, hblk]
    exact ByteVec.word_fill_zero ..
  · have hall : ∀ c < 8, 5 ≤ c → tinySuper.bit tinyImage.data c = false := by decide
    exact hall b hb.2 hb.1

/-- A file is created, written up to an unmapped source byte, unlinked
and freed. -/
def tinyOps : List FsOp :=
  [.create .file 0 0, .write 1 (fun j => if j < 2000 then some 7 else none) 0 3000, .setLinks 1 0,
    .iput 1]

theorem tinyOps_valid : ∀ op ∈ tinyOps, op.Valid tinySuper := by
  intro op hop
  simp only [tinyOps, mem_cons, not_mem_nil, or_false] at hop
  rcases hop with rfl | rfl | rfl | rfl
  · exact trivial
  · exact ⟨by decide, by decide, by decide⟩
  · exact (by decide : 1 < 16)
  · exact (by decide : 1 < 16)

theorem blocks_owned_exactly_tiny :
    fsRun tinySuper tinyImage tinyOps ≠ .error .freeingFreeBlock
      ∧ fsRun tinySuper tinyImage tinyOps ≠ .error .outOfRange :=
  ⟨fun hr => ((blocks_owned_exactly tinyImage_owned tinyOps_valid).2 _ hr).1 rfl,
    fun hr => ((blocks_owned_exactly tinyImage_owned tinyOps_valid).2 _ hr).2 rfl⟩

end Runs

end Xv6
