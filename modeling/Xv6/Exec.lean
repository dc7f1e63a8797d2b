import Xv6.Vm

/-!
# `exec`

`exec.c` and the user page tables of `proc.c`, up to the point where the
new image is committed. The file is given by its contents; `argv` is the
list of the kernel pages that hold the argument strings.
-/

namespace Xv6.Vm

open ByteVec (Byte leNat leBytes)

/-! ## User page tables -/

def procPagetable (M : Machine) (k : Kmem) (trapframe : Nat) :
    Except KPanic (Option Nat × Kmem) :=
  match uvmcreate k with
  | (none, k) => .ok (none, k)
  | (some pagetable, k) => do
      let (done, k) ← mappages k pagetable TRAMPOLINE PGSIZE M.trampoline (PTE_R ||| PTE_X)
      if done then do
        let (done, k) ← mappages k pagetable TRAPFRAME PGSIZE trapframe (PTE_R ||| PTE_W)
        if done then .ok (some pagetable, k)
        else do
          let k ← uvmunmap M k pagetable TRAMPOLINE 1 false
          let k ← uvmfree M k pagetable 0
          .ok (none, k)
      else do
        let k ← uvmfree M k pagetable 0
        .ok (none, k)

def procFreepagetable (M : Machine) (k : Kmem) (pagetable sz : Nat) : Except KPanic Kmem := do
  let k ← uvmunmap M k pagetable TRAMPOLINE 1 false
  let k ← uvmunmap M k pagetable TRAPFRAME 1 false
  uvmfree M k pagetable sz

/-! ## Reading the file -/

/-- `readi` into kernel memory: the bytes it delivers. -/
def readi (content : List Byte) (off n : Nat) : List Byte :=
  if content.length < off ∨ (off + n) % 2 ^ 32 < off then [] else (content.drop off).take n

/-- A field of a structure, little-endian. -/
def field (bs : List Byte) (off size : Nat) : Nat := leNat ((bs.drop off).take size)

abbrev ELF_MAGIC : Nat := 0x464C457F
abbrev ELF_PROG_LOAD : Nat := 1

/-- `sizeof(struct elfhdr)` and `sizeof(struct proghdr)`. -/
abbrev elfhdrSize : Nat := 64
abbrev proghdrSize : Nat := 56

/-- `struct elfhdr`, the fields that are read. -/
structure Elfhdr where
  magic : Nat
  entry : Nat
  phoff : Nat
  phnum : Nat

def Elfhdr.decode (bs : List Byte) : Elfhdr :=
  ⟨field bs 0 4, field bs 24 8, field bs 32 8, field bs 56 2⟩

/-- `struct proghdr`, the fields that are read. -/
structure Proghdr where
  type : Nat
  off : Nat
  vaddr : Nat
  filesz : Nat
  memsz : Nat

def Proghdr.decode (bs : List Byte) : Proghdr :=
  ⟨field bs 0 4, field bs 8 8, field bs 16 8, field bs 32 8, field bs 40 8⟩

/-- The loop of `loadseg` from `i` on, for the given number of rounds. -/
def loadsegLoop (pagetable va : Nat) (content : List Byte) (offset sz : Nat) :
    Nat → Kmem → Nat → Except KPanic (Bool × Kmem)
  | 0, k, _ => .ok (true, k)
  | rounds + 1, k, i =>
      let pa := walkaddr k pagetable ((va + i) % 2 ^ 64)
      if pa = 0 then .error .loadseg
      else
        let n := if sz - i < PGSIZE then sz - i else PGSIZE
        let data := readi content ((offset + i) % 2 ^ 32) n
        let k := k.setPage pa ((k.cell pa).patch 0 data)
        if data.length ≠ n then .ok (false, k)
        else loadsegLoop pagetable va content offset sz rounds k (i + PGSIZE)

def loadseg (k : Kmem) (pagetable va : Nat) (content : List Byte) (offset sz : Nat) :
    Except KPanic (Bool × Kmem) :=
  loadsegLoop pagetable va content offset sz ((sz + PGSIZE - 1) / PGSIZE) k 0

/-- The loop over the program headers, for `rounds` headers from offset
`off` on. The result says whether it ends well, and the size reached. -/
def loadLoop (M : Machine) (pagetable : Nat) (content : List Byte) :
    Nat → Kmem → Nat → Nat → Except KPanic (Bool × Nat × Kmem)
  | 0, k, _, sz => .ok (true, sz, k)
  | rounds + 1, k, off, sz =>
      let bytes := readi content (off % 2 ^ 32) proghdrSize
      let ph := Proghdr.decode bytes
      if bytes.length ≠ proghdrSize then .ok (false, sz, k)
      else if ph.type ≠ ELF_PROG_LOAD then
        loadLoop M pagetable content rounds k (off + proghdrSize) sz
      else if ph.memsz < ph.filesz then .ok (false, sz, k)
      else if (ph.vaddr + ph.memsz) % 2 ^ 64 < ph.vaddr then .ok (false, sz, k)
      else do
        let (sz1, k) ← uvmalloc M k pagetable sz ((ph.vaddr + ph.memsz) % 2 ^ 64)
        if sz1 = 0 then .ok (false, sz, k)
        else if ph.vaddr % PGSIZE ≠ 0 then .ok (false, sz1, k)
        else do
          let (done, k) ← loadseg k pagetable ph.vaddr content (ph.off % 2 ^ 32)
            (ph.filesz % 2 ^ 32)
          if done then loadLoop M pagetable content rounds k (off + proghdrSize) sz1
          else .ok (false, sz1, k)

/-! ## The arguments -/

/-- `strlen` of the string at the start of a page. -/
def strlen (v : Page) : Nat :=
  ((List.range PGSIZE).find? fun i => decide (v.byte i = 0)).getD PGSIZE

/-- `sp -= n` and rounding down to 16. -/
def pushDown (sp n : Nat) : Nat :=
  let sp := (sp + 2 ^ 64 - n) % 2 ^ 64
  sp - sp % 16

/-- Push `n` bytes below `sp`; the result is the new stack pointer. -/
def push (pagetable stackbase : Nat) (k : Kmem) (sp n : Nat) (bytes : List Byte) :
    Option Nat × Kmem :=
  if pushDown sp n < stackbase then (none, k)
  else
    match copyout k pagetable (pushDown sp n) bytes with
    | (false, k) => (none, k)
    | (true, k) => (some (pushDown sp n), k)

/-- Push one argument string. -/
def pushArg (pagetable stackbase : Nat) (k : Kmem) (sp a : Nat) : Option Nat × Kmem :=
  push pagetable stackbase k sp (strlen (k.cell a) + 1)
    ((k.cell a).slice 0 (strlen (k.cell a) + 1))

/-- The loop over the arguments with `pushArg` in its rounds; `ustack`
holds the addresses so far, the last one first. -/
def pushArgs (pushArg : Kmem → Nat → Nat → Option Nat × Kmem) :
    List Nat → Kmem → Nat → List Nat → Option (Nat × List Nat) × Kmem
  | [], k, sp, ustack => (some (sp, ustack), k)
  | a :: argv, k, sp, ustack =>
      if MAXARG ≤ ustack.length then (none, k)
      else
        match pushArg k sp a with
        | (none, k) => (none, k)
        | (some sp, k) => pushArgs pushArg argv k sp (sp :: ustack)

/-- The strings, then the array of pointers to them; the result is the
stack pointer. -/
def pushStack (pagetable stackbase : Nat) (argv : List Nat) (k : Kmem) (sp : Nat) :
    Option Nat × Kmem :=
  match pushArgs (pushArg pagetable stackbase) argv k sp [] with
  | (none, k) => (none, k)
  | (some (sp, ustack), k) =>
      push pagetable stackbase k sp ((ustack.length + 1) * 8)
        ((ustack.reverse ++ [0]).flatMap (leBytes 8))

/-! ## The new image -/

/-- What `exec` commits to. -/
structure Image where
  pagetable : Nat
  sz : Nat
  entry : Nat
  sp : Nat

/-- The label `bad`. -/
def execBad (M : Machine) (k : Kmem) (pagetable sz : Nat) : Except KPanic (Option Image × Kmem) := do
  let k ← procFreepagetable M k pagetable sz
  .ok (none, k)

/-- The stack and the arguments of a loaded program. -/
def execStack (M : Machine) (k : Kmem) (pagetable sz entry : Nat) (argv : List Nat) :
    Except KPanic (Option Image × Kmem) := do
  let sz := PGROUNDUP sz
  let (sz1, k) ← uvmalloc M k pagetable sz (sz + 2 * PGSIZE)
  if sz1 = 0 then execBad M k pagetable sz
  else do
    let k ← uvmclear k pagetable (sz1 - 2 * PGSIZE)
    match pushStack pagetable (sz1 - PGSIZE) argv k sz1 with
    | (none, k) => execBad M k pagetable sz1
    | (some sp, k) => .ok (some ⟨pagetable, sz1, entry, sp⟩, k)

/-- `exec` on a file up to the commit; `none` when it fails, with what
it allocated given back. -/
def execImage (M : Machine) (k : Kmem) (trapframe : Nat) (content : List Byte) (argv : List Nat) :
    Except KPanic (Option Image × Kmem) :=
  let bytes := readi content 0 elfhdrSize
  let elf := Elfhdr.decode bytes
  if bytes.length ≠ elfhdrSize ∨ elf.magic ≠ ELF_MAGIC then .ok (none, k)
  else do
    let (pagetable, k) ← procPagetable M k trapframe
    match pagetable with
    | none => .ok (none, k)
    | some pagetable => do
        let (done, sz, k) ← loadLoop M pagetable content elf.phnum k elf.phoff 0
        if done then execStack M k pagetable sz elf.entry argv
        else execBad M k pagetable sz

end Xv6.Vm
