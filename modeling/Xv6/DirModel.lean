import Xv6.FsDisk

/-!
# Directories and references

The system calls that change the name space, at the level of inodes and
directory entries: a `Node` is an inode with its type, its link count
and, for a directory, its 16-byte slots. The in-memory inode table is
kept as the reference count and the `valid` flag of the entry of each
inode; between calls the references are the working directories and the
open files.

A call runs from its `begin_op` to its `end_op` as one step. The steps
that only fail for want of resources (`balloc`, a directory at its
maximal size, `iget` with a full table) panic and end the run; they are
left out. File content is not part of this model: `itrunc` of an
ordinary file has no effect here.
-/

namespace Xv6

open Function List

open ByteVec (Byte)

abbrev DIRSIZ : Nat := 14
abbrev O_RDONLY : Nat := 0x000
abbrev O_CREATE : Nat := 0x200

/-! ## Nodes -/

/-- A name as stored in a directory entry: the bytes before the first
NUL, at most `DIRSIZ`. -/
abbrev Name := List Byte

/-- `"."`. -/
def dotName : Name := [0x2e]

/-- `".."`. -/
def dotdotName : Name := [0x2e, 0x2e]

/-- `struct dirent`; `inum = 0` marks a free slot. -/
structure Dirent where
  inum : Nat
  name : Name
  deriving DecidableEq

/-- An inode. `type = none` is a free one; `nlink` and `major` are
shorts. -/
structure Node where
  type : Option FileType
  major : Int
  nlink : Int
  ents : List Dirent
  deriving DecidableEq

/-- Assignment to a `short`. -/
def toShort (n : Int) : Int := n.bmod (2 ^ 16)

/-- The inode number in slot `k`. -/
def Node.inumAt (nd : Node) (k : Nat) : Nat := (nd.ents.getD k ⟨0, []⟩).inum

/-- The scan of `dirlookup`: the first used slot with the name. -/
def Node.lookup (nd : Node) (nm : Name) : Option Nat :=
  nd.ents.findIdx? fun e => decide (e.inum ≠ 0 ∧ e.name = nm)

/-- The second scan of `dirlink` and its `writei`: the first free slot,
or a new one at the end. -/
def enter (ents : List Dirent) (e : Dirent) : List Dirent :=
  match ents.findIdx? fun e => decide (e.inum = 0) with
  | some k => ents.set k e
  | none => ents ++ [e]

def Node.link (nd : Node) (e : Dirent) : Node := { nd with ents := enter nd.ents e }

/-- `writei` of a zeroed `struct dirent` at slot `k`. -/
def Node.erase (nd : Node) (k : Nat) : Node := { nd with ents := nd.ents.set k ⟨0, []⟩ }

/-- `ip->nlink += delta`. -/
def Node.addLinks (nd : Node) (delta : Int) : Node :=
  { nd with nlink := toShort (nd.nlink + delta) }

/-- The loop of `isdirempty` starts at the third slot. -/
def Node.isdirempty (nd : Node) : Bool := (nd.ents.drop 2).all fun e => e.inum = 0

/-- `itrunc` and `ip->type = 0`. -/
def Node.freed (nd : Node) : Node := { nd with type := none, ents := [] }

/-- The inode `ialloc` claims: zero but for the type. -/
def Node.fresh (type : FileType) : Node := ⟨some type, 0, 0, []⟩

/-- `ip->major = major; ip->nlink = 1`. -/
def Node.init (nd : Node) (major : Int) : Node := { nd with major := toShort major, nlink := 1 }

/-! ## Paths -/

/-- The byte `'/'`. -/
def slash : Byte := 0x2f

def skipelem (path : List Byte) : Option (Name × List Byte) :=
  match path.dropWhile (· = slash) with
  | [] => none
  | c :: s =>
      some (((c :: s).takeWhile (· ≠ slash)).take DIRSIZ,
        ((c :: s).dropWhile (· ≠ slash)).dropWhile (· = slash))

/-- The elements `skipelem` yields one after the other. -/
def elemsFrom : Nat → List Byte → List Name
  | 0, _ => []
  | n + 1, path =>
      match skipelem path with
      | none => []
      | some (nm, rest) => nm :: elemsFrom n rest

/-- Each element takes at least one byte. -/
def elems (path : List Byte) : List Name := elemsFrom path.length path

/-! ## The state -/

/-- `struct file`; `ip = none` for one without an inode. -/
structure File where
  ref : Nat
  ip : Option Nat
  deriving DecidableEq

structure NameSys (np : Nat) where
  ninodes : Nat
  node : Nat → Node
  ref : Nat → Nat
  valid : Nat → Bool
  cwd : Fin np → Option Nat
  ofile : Fin np × Fin NOFILE → Option (Fin NFILE)
  file : Fin NFILE → File

inductive NamePanic where
  /-- `ilock: no type` -/
  | noType
  /-- `ialloc: no inodes` -/
  | noInodes
  /-- `dirlookup not DIR` -/
  | notDir
  /-- `create dots` -/
  | createDots
  /-- `create: dirlink` -/
  | createDirlink
  /-- `unlink: nlink < 1` -/
  | unlinkNlink
  /-- `fileclose` -/
  | fileclose
  /-- `filedup` -/
  | filedup
  /-- not a panic: the process does not run -/
  | noProc
  deriving DecidableEq

namespace NameSys

variable {np : Nat}

def setNode (S : NameSys np) (i : Nat) (nd : Node) : NameSys np :=
  { S with node := update S.node i nd }

def setFile (S : NameSys np) (f : Fin NFILE) (x : File) : NameSys np :=
  { S with file := update S.file f x }

def setOfile (S : NameSys np) (x : Fin np × Fin NOFILE) (f : Option (Fin NFILE)) : NameSys np :=
  { S with ofile := update S.ofile x f }

def setCwd (S : NameSys np) (p : Fin np) (c : Option Nat) : NameSys np :=
  { S with cwd := update S.cwd p c }

/-! ## The inode table -/

/-- A new entry starts with `valid = 0`. -/
def iget (S : NameSys np) (inum : Nat) : NameSys np :=
  { S with
    ref := update S.ref inum (S.ref inum + 1)
    valid := if S.ref inum = 0 then update S.valid inum false else S.valid }

def idup (S : NameSys np) (inum : Nat) : NameSys np :=
  { S with ref := update S.ref inum (S.ref inum + 1) }

/-- Only a fresh entry is read from the disk and checked. -/
def ilock (S : NameSys np) (inum : Nat) : Except NamePanic (NameSys np) :=
  if S.valid inum then .ok S
  else if (S.node inum).type = none then .error .noType
  else .ok { S with valid := update S.valid inum true }

/-- The last reference to an inode without links frees it. -/
def iput (S : NameSys np) (inum : Nat) : NameSys np :=
  if S.ref inum = 1 ∧ S.valid inum = true ∧ (S.node inum).nlink = 0 then
    { S with
      node := update S.node inum (S.node inum).freed
      valid := update S.valid inum false
      ref := update S.ref inum (S.ref inum - 1) }
  else { S with ref := update S.ref inum (S.ref inum - 1) }

def ialloc (S : NameSys np) (type : FileType) : Except NamePanic (Nat × NameSys np) :=
  match (range' 1 (S.ninodes - 1)).find? fun i => decide ((S.node i).type = none) with
  | none => .error .noInodes
  | some inum => .ok (inum, (S.setNode inum (Node.fresh type)).iget inum)

/-! ## Directories and paths -/

/-- Returns the slot and the inode number, with a reference. -/
def dirlookup (S : NameSys np) (dp : Nat) (nm : Name) :
    Except NamePanic (Option (Nat × Nat) × NameSys np) :=
  if (S.node dp).type ≠ some .dir then .error .notDir
  else match (S.node dp).lookup nm with
    | none => .ok (none, S)
    | some k => .ok (some (k, (S.node dp).inumAt k), S.iget ((S.node dp).inumAt k))

/-- `de.inum` is a `ushort`. -/
def dirlink (S : NameSys np) (dp : Nat) (nm : Name) (inum : Nat) :
    Except NamePanic (Bool × NameSys np) := do
  let (found, S) ← S.dirlookup dp nm
  match found with
  | some (_, ip) => .ok (false, S.iput ip)
  | none => .ok (true, S.setNode dp ((S.node dp).link ⟨inum % 2 ^ 16, nm⟩))

/-- The loop of `namex`, on the elements still to come. -/
def namexLoop (parent : Bool) :
    List Name → Nat → NameSys np → Except NamePanic (Option (Nat × Name) × NameSys np)
  | [], ip, S => if parent then .ok (none, S.iput ip) else .ok (some (ip, []), S)
  | nm :: rest, ip, S => do
      let S ← S.ilock ip
      if (S.node ip).type ≠ some .dir then .ok (none, S.iput ip)
      else if parent && rest.isEmpty then .ok (some (ip, nm), S)
      else do
        let (next, S) ← S.dirlookup ip nm
        match next with
        | none => .ok (none, S.iput ip)
        | some (_, j) => namexLoop parent rest j (S.iput ip)

def namex (S : NameSys np) (p : Fin np) (path : List Byte) (parent : Bool) :
    Except NamePanic (Option (Nat × Name) × NameSys np) :=
  if path.head? = some slash then namexLoop parent (elems path) ROOTINO (S.iget ROOTINO)
  else match S.cwd p with
    | none => .error .noProc
    | some c => namexLoop parent (elems path) c (S.idup c)

def namei (S : NameSys np) (p : Fin np) (path : List Byte) :
    Except NamePanic (Option (Nat × Name) × NameSys np) := S.namex p path false

def nameiparent (S : NameSys np) (p : Fin np) (path : List Byte) :
    Except NamePanic (Option (Nat × Name) × NameSys np) := S.namex p path true

/-! ## System calls -/

/-- The entries of a new directory, and the link its `..` is. -/
def createDots (S : NameSys np) (dp ip : Nat) : Except NamePanic (NameSys np) := do
  let S := S.setNode dp ((S.node dp).addLinks 1)
  let (ok, S) ← S.dirlink ip dotName ip
  if !ok then .error .createDots
  else do
    let (ok, S) ← S.dirlink ip dotdotName dp
    if !ok then .error .createDots else .ok S

/-- The part of `create` for a name that is not there: a new inode and
its entry in `dp`. -/
def createNew (S : NameSys np) (dp : Nat) (nm : Name) (type : FileType) (major : Int) :
    Except NamePanic (Option Nat × NameSys np) := do
  let (ip, S) ← S.ialloc type
  let S ← S.ilock ip
  let S := S.setNode ip ((S.node ip).init major)
  let S ← (if type = .dir then S.createDots dp ip else .ok S)
  let (ok, S) ← S.dirlink dp nm ip
  if !ok then .error .createDirlink else .ok (some ip, S.iput dp)

def create (S : NameSys np) (p : Fin np) (path : List Byte) (type : FileType) (major : Int) :
    Except NamePanic (Option Nat × NameSys np) := do
  let (r, S) ← S.nameiparent p path
  match r with
  | none => .ok (none, S)
  | some (dp, nm) => do
      let S ← S.ilock dp
      let (found, S) ← S.dirlookup dp nm
      match found with
      | some (_, ip) => do
          let S ← (S.iput dp).ilock ip
          if type = .file ∧ ((S.node ip).type = some .file ∨ (S.node ip).type = some .device) then
            .ok (some ip, S)
          else .ok (none, S.iput ip)
      | none => S.createNew dp nm type major

/-- `filealloc`: the first unused file. -/
def filealloc (S : NameSys np) : Option (Fin NFILE × NameSys np) :=
  match (finRange NFILE).find? fun f => decide ((S.file f).ref = 0) with
  | none => none
  | some f => some (f, S.setFile f ⟨1, none⟩)

/-- `fdalloc`: the first unused descriptor. -/
def fdalloc (S : NameSys np) (p : Fin np) (f : Fin NFILE) : Option (Fin NOFILE × NameSys np) :=
  match (finRange NOFILE).find? fun fd => decide (S.ofile (p, fd) = none) with
  | none => none
  | some fd => some (fd, S.setOfile (p, fd) (some f))

def fileclose (S : NameSys np) (f : Fin NFILE) : Except NamePanic (NameSys np) :=
  if (S.file f).ref < 1 then .error .fileclose
  else if (S.file f).ref - 1 > 0 then
    .ok (S.setFile f ⟨(S.file f).ref - 1, (S.file f).ip⟩)
  else match (S.file f).ip with
    | none => .ok (S.setFile f ⟨0, none⟩)
    | some ip => .ok ((S.setFile f ⟨0, none⟩).iput ip)

def filedup (S : NameSys np) (f : Fin NFILE) : Except NamePanic (NameSys np) :=
  if (S.file f).ref < 1 then .error .filedup
  else .ok (S.setFile f ⟨(S.file f).ref + 1, (S.file f).ip⟩)

/-- The end of `sys_open`: a file and a descriptor for the inode. -/
def openFile (S : NameSys np) (p : Fin np) (ip : Nat) : Except NamePanic (Int × NameSys np) :=
  if (S.node ip).type = some .device ∧ ((S.node ip).major < 0 ∨ (S.node ip).major ≥ NDEV) then
    .ok (-1, S.iput ip)
  else match S.filealloc with
    | none => .ok (-1, S.iput ip)
    | some (f, S) =>
        match S.fdalloc p f with
        | none => do
            let S ← S.fileclose f
            .ok (-1, S.iput ip)
        | some (fd, S) => .ok (fd.val, S.setFile f ⟨1, some ip⟩)

def sysOpen (S : NameSys np) (p : Fin np) (path : List Byte) (omode : Nat) :
    Except NamePanic (Int × NameSys np) :=
  if omode &&& O_CREATE ≠ 0 then do
    let (r, S) ← S.create p path .file 0
    match r with
    | none => .ok (-1, S)
    | some ip => S.openFile p ip
  else do
    let (r, S) ← S.namei p path
    match r with
    | none => .ok (-1, S)
    | some (ip, _) => do
        let S ← S.ilock ip
        if (S.node ip).type = some .dir ∧ omode ≠ O_RDONLY then .ok (-1, S.iput ip)
        else S.openFile p ip

/-- `sys_mkdir` and `sys_mknod`. -/
def sysMake (S : NameSys np) (p : Fin np) (path : List Byte) (type : FileType) (major : Int) :
    Except NamePanic (Int × NameSys np) := do
  let (r, S) ← S.create p path type major
  match r with
  | none => .ok (-1, S)
  | some ip => .ok (0, S.iput ip)

/-- The label `bad` of `sys_link`. -/
def linkBad (S : NameSys np) (ip : Nat) : Except NamePanic (Int × NameSys np) := do
  let S ← S.ilock ip
  let S := S.setNode ip ((S.node ip).addLinks (-1))
  .ok (-1, S.iput ip)

def sysLink (S : NameSys np) (p : Fin np) (old new : List Byte) :
    Except NamePanic (Int × NameSys np) := do
  let (r, S) ← S.namei p old
  match r with
  | none => .ok (-1, S)
  | some (ip, _) => do
      let S ← S.ilock ip
      if (S.node ip).type = some .dir then .ok (-1, S.iput ip)
      else do
        let S := S.setNode ip ((S.node ip).addLinks 1)
        let (r, S) ← S.nameiparent p new
        match r with
        | none => S.linkBad ip
        | some (dp, nm) => do
            let S ← S.ilock dp
            let (ok, S) ← S.dirlink dp nm ip
            if !ok then (S.iput dp).linkBad ip
            else .ok (0, (S.iput dp).iput ip)

/-- `sys_unlink` from the point where both inodes are locked. -/
def unlinkAt (S : NameSys np) (dp k ip : Nat) : Except NamePanic (Int × NameSys np) :=
  if (S.node ip).nlink < 1 then .error .unlinkNlink
  else if (S.node ip).type = some .dir ∧ !(S.node ip).isdirempty then
    .ok (-1, (S.iput ip).iput dp)
  else
    let S := S.setNode dp ((S.node dp).erase k)
    let S := if (S.node ip).type = some .dir then S.setNode dp ((S.node dp).addLinks (-1)) else S
    let S := S.iput dp
    let S := S.setNode ip ((S.node ip).addLinks (-1))
    .ok (0, S.iput ip)

def sysUnlink (S : NameSys np) (p : Fin np) (path : List Byte) :
    Except NamePanic (Int × NameSys np) := do
  let (r, S) ← S.nameiparent p path
  match r with
  | none => .ok (-1, S)
  | some (dp, nm) => do
      let S ← S.ilock dp
      if nm = dotName ∨ nm = dotdotName then .ok (-1, S.iput dp)
      else do
        let (found, S) ← S.dirlookup dp nm
        match found with
        | none => .ok (-1, S.iput dp)
        | some (k, ip) => do
            let S ← S.ilock ip
            S.unlinkAt dp k ip

def sysChdir (S : NameSys np) (p : Fin np) (path : List Byte) :
    Except NamePanic (Int × NameSys np) := do
  let (r, S) ← S.namei p path
  match r with
  | none => .ok (-1, S)
  | some (ip, _) => do
      let S ← S.ilock ip
      if (S.node ip).type ≠ some .dir then .ok (-1, S.iput ip)
      else match S.cwd p with
        | none => .error .noProc
        | some c => .ok (0, (S.iput c).setCwd p (some ip))

def sysClose (S : NameSys np) (p : Fin np) (fd : Fin NOFILE) :
    Except NamePanic (Int × NameSys np) :=
  match S.ofile (p, fd) with
  | none => .ok (-1, S)
  | some f => do
      let S ← (S.setOfile (p, fd) none).fileclose f
      .ok (0, S)

/-- The loop of `exit` over the descriptors. -/
def exitFiles (p : Fin np) : List (Fin NOFILE) → NameSys np → Except NamePanic (NameSys np)
  | [], S => .ok S
  | fd :: fds, S =>
      match S.ofile (p, fd) with
      | none => exitFiles p fds S
      | some f => do
          let S ← S.fileclose f
          exitFiles p fds (S.setOfile (p, fd) none)

def exit (S : NameSys np) (p : Fin np) : Except NamePanic (NameSys np) := do
  let S ← exitFiles p (finRange NOFILE) S
  match S.cwd p with
  | none => .error .noProc
  | some c => .ok ((S.iput c).setCwd p none)

/-- The loop of `fork` over the descriptors of the parent. -/
def forkFiles (p q : Fin np) : List (Fin NOFILE) → NameSys np → Except NamePanic (NameSys np)
  | [], S => .ok S
  | fd :: fds, S =>
      match S.ofile (p, fd) with
      | none => forkFiles p q fds S
      | some f => do
          let S ← S.filedup f
          forkFiles p q fds (S.setOfile (q, fd) (some f))

/-- `fork` into the unused slot `q`. -/
def fork (S : NameSys np) (p q : Fin np) : Except NamePanic (NameSys np) :=
  match S.cwd p, S.cwd q with
  | some c, none => do
      let S ← forkFiles p q (finRange NOFILE) S
      .ok ((S.idup c).setCwd q (some c))
  | _, _ => .error .noProc

def sysDup (S : NameSys np) (p : Fin np) (fd : Fin NOFILE) : Except NamePanic (Int × NameSys np) :=
  match S.ofile (p, fd) with
  | none => .ok (-1, S)
  | some f =>
      match S.fdalloc p f with
      | none => .ok (-1, S)
      | some (fd', S) => do
          let S ← S.filedup f
          .ok (fd'.val, S)

end NameSys

/-- The calls of the processes. -/
inductive SysCall (np : Nat) where
  | open (p : Fin np) (path : List Byte) (omode : Nat)
  | mkdir (p : Fin np) (path : List Byte)
  | mknod (p : Fin np) (path : List Byte) (major : Int)
  | link (p : Fin np) (old new : List Byte)
  | unlink (p : Fin np) (path : List Byte)
  | chdir (p : Fin np) (path : List Byte)
  | close (p : Fin np) (fd : Fin NOFILE)
  | dup (p : Fin np) (fd : Fin NOFILE)
  | fork (p q : Fin np)
  | exit (p : Fin np)

def SysCall.proc {np : Nat} : SysCall np → Fin np
  | .open p _ _ | .mkdir p _ | .mknod p _ _ | .link p _ _ | .unlink p _ | .chdir p _ | .close p _
  | .dup p _ | .fork p _ | .exit p => p

/-- One completed call, with its return value. -/
def sysCall {np : Nat} (S : NameSys np) : SysCall np → Except NamePanic (Int × NameSys np)
  | .open p path omode => S.sysOpen p path omode
  | .mkdir p path => S.sysMake p path .dir 0
  | .mknod p path major => S.sysMake p path .device major
  | .link p old new => S.sysLink p old new
  | .unlink p path => S.sysUnlink p path
  | .chdir p path => S.sysChdir p path
  | .close p fd => S.sysClose p fd
  | .dup p fd => S.sysDup p fd
  | .fork p q => do
      let S ← S.fork p q
      .ok (0, S)
  | .exit p => do
      let S ← S.exit p
      .ok (0, S)

end Xv6
