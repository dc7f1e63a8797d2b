import Xv6.DirModel
import Xv6.FsContent

/-!
# Directories as byte strings

`dirlookup`, `dirlink` and the parts of `create` and `sys_unlink` that
work on the disk, over `readi` and `writei`. A directory is a file of
16-byte entries, two bytes of inode number and fourteen of name, and a
name is compared and stored by `strncmp` and `strncpy`. A C string is
the list of its bytes; a byte past the end of the list is NUL.

The caller holds the locks, so the in-memory inodes are passed along.
References to inodes are not part of this model: `iget` and the `iput`
that only gives one back have no effect here.
-/

namespace Xv6.Dir

open List

open ByteVec (Byte leNat leBytes)

/-! ## `string.c` -/

def strncmp : Nat → List Byte → List Byte → Int
  | 0, _, _ => 0
  | n + 1, p, q =>
      if p.headD 0 ≠ 0 ∧ p.headD 0 = q.headD 0 then strncmp n p.tail q.tail
      else (p.headD 0).toNat - (q.headD 0).toNat

/-- The `n` bytes `strncpy` stores. -/
def strncpy : Nat → List Byte → List Byte
  | 0, _ => []
  | n + 1, t => if t.headD 0 = 0 then replicate (n + 1) 0 else t.headD 0 :: strncpy n t.tail

def namecmp (s t : List Byte) : Int := strncmp DIRSIZ s t

/-! ## Entries -/

/-- `sizeof(struct dirent)`. -/
abbrev DESIZE : Nat := 16

/-- `de.inum` of the bytes of an entry. -/
def deInum (de : List Byte) : Nat := leNat (de.take 2)

/-- `de.name`. -/
def deName (de : List Byte) : List Byte := de.drop 2

/-- The bytes of an entry; `inum` is a `ushort`. -/
def deBytes (inum : Nat) (name : List Byte) : List Byte := leBytes 2 inum ++ strncpy DIRSIZ name

inductive DirPanic where
  | fs (e : FsPanic)
  /-- `dirlookup not DIR` -/
  | notDir
  /-- `dirlookup read` -/
  | lookupRead
  /-- `dirlink read` -/
  | linkRead
  /-- `dirlink` -/
  | link
  /-- `create dots` -/
  | createDots
  /-- `create: dirlink` -/
  | createDirlink
  /-- `unlink: nlink < 1` -/
  | unlinkNlink
  /-- `isdirempty: readi` -/
  | isdiremptyRead
  /-- `unlink: writei` -/
  | unlinkWritei
  deriving DecidableEq

/-- `readi` of the entry at `off` into kernel memory; a short read
panics. -/
def readDe (sb : Superblock) (short : DirPanic) (ip : Inode) (st : FsState) (off : Nat) :
    Except DirPanic (List Byte × Inode × FsState) := do
  let (r, de, ip, st) ← (readi sb st ip (fun _ => true) off DESIZE).mapError .fs
  if r ≠ DESIZE then .error short else .ok (de, ip, st)

/-- `writei` of an entry from kernel memory. -/
def writeDe (sb : Superblock) (st : FsState) (inum : Nat) (ip : Inode) (de : List Byte) (off : Nat) :
    Except DirPanic (Int × Inode × FsState) :=
  (writei sb st inum ip (fun j => de[j]?) off DESIZE).mapError .fs

/-- The rounds of a loop over the entries from `off` on. -/
def deRounds (size off : Nat) : Nat := (size - off + DESIZE - 1) / DESIZE

/-- The loops over the entries of a directory read one after the other
up to the first that is a `hit`: the offset where the loop stops, and the
entry. -/
def scanLoop (sb : Superblock) (short : DirPanic) (hit : List Byte → Bool) :
    Nat → Nat → Inode → FsState → Except DirPanic ((Nat × Option (List Byte)) × Inode × FsState)
  | 0, off, ip, st => .ok ((off, none), ip, st)
  | n + 1, off, ip, st => do
      let (de, ip, st) ← readDe sb short ip st off
      if hit de then .ok ((off, some de), ip, st)
      else scanLoop sb short hit n (off + DESIZE) ip st

/-- The loop from the entry at `off`. -/
def scan (sb : Superblock) (short : DirPanic) (hit : List Byte → Bool) (off : Nat) (ip : Inode)
    (st : FsState) : Except DirPanic ((Nat × Option (List Byte)) × Inode × FsState) :=
  scanLoop sb short hit (deRounds ip.size off) off ip st

/-! ## `fs.c` -/

/-- The offset and the inode number of the entry, if there is one. -/
def dirlookup (sb : Superblock) (st : FsState) (ip : Inode) (name : List Byte) :
    Except DirPanic (Option (Nat × Nat) × Inode × FsState) :=
  if ip.type ≠ FileType.dir.code then .error .notDir
  else do
    let ((off, de), ip, st) ←
      scan sb .lookupRead (fun de => deInum de ≠ 0 ∧ namecmp name (deName de) = 0) 0 ip st
    .ok (de.map fun de => (off, deInum de), ip, st)

/-- `false` stands for -1. `d` is the number of the directory `ip`. -/
def dirlink (sb : Superblock) (st : FsState) (d : Nat) (ip : Inode) (name : List Byte) (inum : Nat) :
    Except DirPanic (Bool × Inode × FsState) := do
  let (found, ip, st) ← dirlookup sb st ip name
  match found with
  | some _ => .ok (false, ip, st)
  | none => do
      let ((off, _), ip, st) ← scan sb .linkRead (fun de => deInum de = 0) 0 ip st
      let (r, ip, st) ← writeDe sb st d ip (deBytes inum name) off
      if r ≠ DESIZE then .error .link else .ok (true, ip, st)

/-! ## `sysfile.c` -/

/-- `ip->nlink += delta`, a `short`. -/
def addLinks (ip : Inode) (delta : Int) : Inode := ip.setLinks ((ip.nlink + delta) % 2 ^ 16).toNat

/-- A `short` that is less than 1. -/
def nlinkLow (ip : Inode) : Bool := ip.nlink = 0 ∨ 2 ^ 15 ≤ ip.nlink

def isdirempty (sb : Superblock) (st : FsState) (ip : Inode) :
    Except DirPanic (Bool × Inode × FsState) := do
  let ((_, de), ip, st) ← scan sb .isdiremptyRead (fun de => deInum de ≠ 0) (2 * DESIZE) ip st
  .ok (de.isNone, ip, st)

/-- The entries of a new directory `ip`, and the link its `..` is. -/
def createDots (sb : Superblock) (st : FsState) (dp : Nat) (d : Inode) (inum : Nat) (ip : Inode) :
    Except DirPanic (Inode × Inode × FsState) := do
  let d := addLinks d 1
  let st := iupdate sb st dp d
  let (ok, ip, st) ← dirlink sb st inum ip dotName inum
  if !ok then .error .createDots
  else do
    let (ok, ip, st) ← dirlink sb st inum ip dotdotName dp
    if !ok then .error .createDots else .ok (d, ip, st)

/-- `create` in the directory `dp` once `nameiparent` has found it; none
stands for 0. -/
def create (sb : Superblock) (st : FsState) (dp : Nat) (name : List Byte) (type : FileType)
    (major minor : Nat) : Except DirPanic (Option Nat × FsState) := do
  let d ← (ilock sb st dp).mapError .fs
  let (found, d, st) ← dirlookup sb st d name
  match found with
  | some (_, inum) => do
      let ip ← (ilock sb st inum).mapError .fs
      .ok (if type = .file ∧ (ip.type = FileType.file.code ∨ ip.type = FileType.device.code)
        then some inum else none, st)
  | none => do
      let (inum, st) ← (ialloc sb st type.code).mapError .fs
      let ip ← (ilock sb st inum).mapError .fs
      let ip := ip.init major minor
      let st := iupdate sb st inum ip
      let (d, _, st) ← (if type = .dir then createDots sb st dp d inum ip else .ok (d, ip, st))
      let (ok, _, st) ← dirlink sb st dp d name inum
      if !ok then .error .createDirlink else .ok (some inum, st)

/-- `iput` of the last reference to an inode without links. -/
def iputLast (sb : Superblock) (st : FsState) (inum : Nat) (ip : Inode) : Except DirPanic FsState :=
  if ip.nlink = 0 then do
    let (ip, st) ← (itrunc sb st inum ip).mapError .fs
    .ok (iupdate sb st inum ip.clear)
  else .ok st

/-- `sys_unlink` in the directory `dp` once `nameiparent` has found it;
`false` stands for -1. With `last`, nobody else has a reference to the
inode. `ilock` of the directory itself would not return. -/
def unlink (sb : Superblock) (st : FsState) (dp : Nat) (name : List Byte) (last : Bool) :
    Except DirPanic (Bool × FsState) := do
  let d ← (ilock sb st dp).mapError .fs
  if namecmp name dotName = 0 ∨ namecmp name dotdotName = 0 then .ok (false, st)
  else do
    let (found, d, st) ← dirlookup sb st d name
    match found with
    | none => .ok (false, st)
    | some (off, inum) =>
        if inum = dp then .ok (false, st)
        else do
          let ip ← (ilock sb st inum).mapError .fs
          if nlinkLow ip then .error .unlinkNlink
          else do
            let (empty, ip, st) ←
              (if ip.type = FileType.dir.code then isdirempty sb st ip else .ok (true, ip, st))
            if !empty then .ok (false, st)
            else do
              let (r, d, st) ← writeDe sb st dp d (replicate DESIZE 0) off
              if r ≠ DESIZE then .error .unlinkWritei
              else do
                let st := if ip.type = FileType.dir.code then iupdate sb st dp (addLinks d (-1)) else st
                let ip := addLinks ip (-1)
                let st := iupdate sb st inum ip
                let st ← (if last then iputLast sb st inum ip else .ok st)
                .ok (true, st)

/-- `sys_link` of the inode `inum` that `namei` has found; `dp` is the
directory for the new name, none if `nameiparent` fails, and `false`
stands for -1. -/
def link (sb : Superblock) (st : FsState) (inum : Nat) (dp : Option Nat) (name : List Byte) :
    Except DirPanic (Bool × FsState) := do
  let ip ← (ilock sb st inum).mapError .fs
  if ip.type = FileType.dir.code then .ok (false, st)
  else do
    let st := iupdate sb st inum (addLinks ip 1)
    let (ok, st) ← (match dp with
      | none => .ok (false, st)
      | some dp => do
          let d ← (ilock sb st dp).mapError .fs
          let (ok, _, st) ← dirlink sb st dp d name inum
          .ok (ok, st))
    if ok then .ok (true, st)
    else do
      -- the label `bad`
      let ip ← (ilock sb st inum).mapError .fs
      .ok (false, iupdate sb st inum (addLinks ip (-1)))

/-! ## Names -/

/-- What is in a buffer of `n` bytes: those before the first NUL. -/
def cstr (n : Nat) (buf : List Byte) : List Byte := (buf.take n).takeWhile (· ≠ 0)

/-- The name in a buffer. -/
def cname (buf : List Byte) : Name := cstr DIRSIZ buf

/-- An entry with the name that is in it. -/
def decode (de : List Byte) : Dirent := ⟨deInum de, cname (deName de)⟩

section Strings

variable {n : Nat} {p q t : List Byte}

theorem cstr_succ : cstr (n + 1) p = if p.headD 0 = 0 then [] else p.headD 0 :: cstr n p.tail := by
  rcases p with _ | ⟨a, p⟩
  · rfl
  · rw [cstr, take_succ_cons, takeWhile_cons]
    by_cases ha : a = 0
    · grind
    · rw [if_pos (decide_eq_true ha)]
      exact (if_neg ha).symm

theorem strncmp_eq_zero : strncmp n p q = 0 ↔ cstr n p = cstr n q := by
  induction n generalizing p q with
  | zero => exact iff_of_true rfl rfl
  | succ n ih =>
    rw [strncmp, cstr_succ, cstr_succ]
    generalize p.headD 0 = a
    generalize q.headD 0 = b
    have hsub : (a.toNat : Int) - b.toNat = 0 ↔ a = b :=
      ⟨fun h => BitVec.eq_of_toNat_eq (by omega), fun h => by rw [h, sub_self]⟩
    grind

theorem namecmp_eq_zero : namecmp p q = 0 ↔ cname p = cname q := strncmp_eq_zero

@[simp] theorem strncpy_length : (strncpy n t).length = n := by
  induction n generalizing t with
  | zero => rfl
  | succ n ih =>
    rw [strncpy]
    grind

theorem cstr_strncpy : cstr n (strncpy n t) = cstr n t := by
  induction n generalizing t with
  | zero => rfl
  | succ n ih =>
    rw [strncpy, cstr_succ, cstr_succ]
    grind

theorem cname_strncpy : cname (strncpy DIRSIZ t) = cname t := cstr_strncpy

end Strings

@[simp] theorem deBytes_length (inum : Nat) (name : List Byte) : (deBytes inum name).length = DESIZE := by
  rw [deBytes, length_append, ByteVec.leBytes_length, strncpy_length]
  rfl

theorem decode_deBytes (inum : Nat) (name : List Byte) :
    decode (deBytes inum name) = ⟨inum % 2 ^ 16, cname name⟩ := by
  have h2 : (leBytes 2 inum).length = 2 := ByteVec.leBytes_length 2 inum
  rw [decode, deInum, deName, deBytes, take_left' h2, drop_left' h2, ByteVec.leNat_leBytes,
    cname_strncpy]
  rfl

theorem decode_zero : decode (List.replicate DESIZE 0) = ⟨0, []⟩ := by decide

end Xv6.Dir
