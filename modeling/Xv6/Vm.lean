import Xv6.Paging
import Xv6.Transfer

/-!
# Physical pages and page tables

`kalloc.c` and `vm.c`. Memory is a store of pages, each a buffer of
`PGSIZE` bytes under its page-aligned address, and a page-table page is
read and written as 512 little-endian words. The free list is the list
of its pages; the links inside the pages are not modelled, nobody else
reads them.

`kalloc` may fail although a page is free: `fails` says for each of the
next calls whether it does. A loop over addresses is a recursion on the
number of its rounds.
-/

namespace Xv6

/-- Where the kernel stops. -/
inductive KPanic where
  | kfree | walk | mappagesSize | mappagesRemap
  | uvmunmapAlign | uvmunmapWalk | uvmunmapNotMapped | uvmunmapNotLeaf
  | inituvm | freewalkLeaf | uvmcopyPte | uvmcopyPresent | uvmclear
  | kvmmap | procMapstacks | loadseg | initExiting | filedup | fileclose
  /-- a page table deeper than three levels; `freewalk` would go on -/
  | freewalkDepth
  /-- an unchecked null pointer at boot -/
  | nullPointer
  deriving DecidableEq

namespace Vm

open Transfer

scoped instance : NeZero NPTE := ⟨by decide⟩

abbrev Page := ByteVec PGSIZE

structure Kmem extends Store Nat Page where
  fails : List Bool

/-! ## `kalloc.c` -/

/-- Overwrite a page. -/
def Kmem.setPage (k : Kmem) (pa : Nat) (v : Page) : Kmem :=
  { k with cell := Function.update k.cell pa v }

def kfree (M : Machine) (k : Kmem) (pa : Nat) : Except KPanic Kmem :=
  if pa % PGSIZE ≠ 0 ∨ pa < M.kend ∨ M.phystop ≤ pa then .error .kfree
  else .ok { k with
    cell := Function.update k.cell pa (ByteVec.fill PGSIZE 1)
    free := pa :: k.free }

def kalloc (k : Kmem) : Option Nat × Kmem :=
  if k.fails.headD false then (none, { k with fails := k.fails.tail })
  else
    match k.free with
    | [] => (none, { k with fails := k.fails.tail })
    | r :: rest => (some r, ⟨⟨Function.update k.cell r (ByteVec.fill PGSIZE 5), rest⟩, k.fails.tail⟩)

/-- The loop of `freerange`. -/
def freerangeLoop (M : Machine) (p : Nat) : Nat → Kmem → Except KPanic Kmem
  | 0, k => .ok k
  | n + 1, k => do
      let k ← kfree M k p
      freerangeLoop M (p + PGSIZE) n k

def freerange (M : Machine) (k : Kmem) : Except KPanic Kmem :=
  freerangeLoop M (PGROUNDUP M.kend) ((M.phystop - PGROUNDUP M.kend) / PGSIZE) k

/-! ## Page tables -/

/-- A `pte_t *`. -/
structure PtePtr where
  page : Nat
  ix : Nat

def Kmem.pte (k : Kmem) (p : PtePtr) : Nat := (k.cell p.page).word 8 (8 * p.ix)

def Kmem.setPte (k : Kmem) (p : PtePtr) (pte : Nat) : Kmem :=
  k.setPage p.page ((k.cell p.page).setWord 8 (8 * p.ix) pte)

/-- The loop of `walk`, from `level` down. -/
def walkLoop (va : Nat) (alloc : Bool) : Nat → Kmem → Nat → Option PtePtr × Kmem
  | 0, k, pagetable => (some ⟨pagetable, PX 0 va⟩, k)
  | level + 1, k, pagetable =>
      let p : PtePtr := ⟨pagetable, PX (level + 1) va⟩
      if pteHas (k.pte p) PTE_V then walkLoop va alloc level k (PTE2PA (k.pte p))
      else if alloc then
        match kalloc k with
        | (none, k) => (none, k)
        | (some pg, k) =>
            walkLoop va alloc level
              ((k.setPage pg (ByteVec.fill PGSIZE 0)).setPte p (PA2PTE pg ||| PTE_V)) pg
      else (none, k)

def walk (k : Kmem) (pagetable va : Nat) (alloc : Bool) : Except KPanic (Option PtePtr × Kmem) :=
  if MAXVA ≤ va then .error .walk else .ok (walkLoop va alloc 2 k pagetable)

/-- 0 when the address is not mapped for the user. -/
def walkaddr (k : Kmem) (pagetable va : Nat) : Nat :=
  match walk k pagetable va false with
  | .ok (some p, _) =>
      if pteHas (k.pte p) PTE_V = false then 0
      else if pteHas (k.pte p) PTE_U = false then 0
      else PTE2PA (k.pte p)
  | _ => 0

/-- The loop of `mappages`, for the given number of pages. The result is
whether it succeeds. -/
def mappagesLoop (pagetable perm : Nat) : Nat → Kmem → Nat → Nat → Except KPanic (Bool × Kmem)
  | 0, k, _, _ => .ok (true, k)
  | n + 1, k, a, pa => do
      let (pte, k) ← walk k pagetable a true
      match pte with
      | none => .ok (false, k)
      | some p =>
          if pteHas (k.pte p) PTE_V then .error .mappagesRemap
          else
            mappagesLoop pagetable perm n (k.setPte p (PA2PTE pa ||| perm ||| PTE_V))
              ((a + PGSIZE) % 2 ^ 64) ((pa + PGSIZE) % 2 ^ 64)

def mappages (k : Kmem) (pagetable va size pa perm : Nat) : Except KPanic (Bool × Kmem) :=
  if size = 0 then .error .mappagesSize
  else
    let a := PGROUNDDOWN va
    let last := PGROUNDDOWN ((va + size - 1) % 2 ^ 64)
    mappagesLoop pagetable perm ((last + 2 ^ 64 - a) % 2 ^ 64 / PGSIZE + 1) k a pa

/-- The loop of `uvmunmap`. -/
def uvmunmapLoop (M : Machine) (pagetable : Nat) (doFree : Bool) :
    Nat → Kmem → Nat → Except KPanic Kmem
  | 0, k, _ => .ok k
  | n + 1, k, a => do
      let (pte, k) ← walk k pagetable a false
      match pte with
      | none => .error .uvmunmapWalk
      | some p =>
          if pteHas (k.pte p) PTE_V = false then .error .uvmunmapNotMapped
          else if PTE_FLAGS (k.pte p) = PTE_V then .error .uvmunmapNotLeaf
          else do
            let k' ← (if doFree then kfree M k (PTE2PA (k.pte p)) else .ok k)
            uvmunmapLoop M pagetable doFree n (k'.setPte p 0) (a + PGSIZE)

def uvmunmap (M : Machine) (k : Kmem) (pagetable va npages : Nat) (doFree : Bool) :
    Except KPanic Kmem :=
  if va % PGSIZE ≠ 0 then .error .uvmunmapAlign
  else
    uvmunmapLoop M pagetable doFree (((va + npages * PGSIZE) % 2 ^ 64 - va) / PGSIZE) k va

def uvmcreate (k : Kmem) : Option Nat × Kmem :=
  match kalloc k with
  | (none, k) => (none, k)
  | (some pagetable, k) => (some pagetable, k.setPage pagetable (ByteVec.fill PGSIZE 0))

/-- The result of `mappages` is not looked at. -/
def uvminit (k : Kmem) (pagetable : Nat) (src : List ByteVec.Byte) : Except KPanic Kmem :=
  if PGSIZE ≤ src.length then .error .inituvm
  else
    match kalloc k with
    | (none, _) => .error .nullPointer
    | (some mem, k) => do
        let (_, k) ← mappages (k.setPage mem (ByteVec.fill PGSIZE 0)) pagetable 0 PGSIZE mem
          (PTE_W ||| PTE_R ||| PTE_X ||| PTE_U)
        .ok (k.setPage mem ((k.cell mem).patch 0 src))

/-- An `int` passed where a `uint64` is expected. -/
def intToUint64 (n : Nat) : Nat :=
  if n % 2 ^ 32 < 2 ^ 31 then n % 2 ^ 32 else n % 2 ^ 32 + (2 ^ 64 - 2 ^ 32)

def uvmdealloc (M : Machine) (k : Kmem) (pagetable oldsz newsz : Nat) :
    Except KPanic (Nat × Kmem) :=
  if oldsz ≤ newsz then .ok (oldsz, k)
  else if PGROUNDUP newsz < PGROUNDUP oldsz then do
    let npages := intToUint64 ((PGROUNDUP oldsz - PGROUNDUP newsz) / PGSIZE)
    let k ← uvmunmap M k pagetable (PGROUNDUP newsz) npages true
    .ok (newsz, k)
  else .ok (newsz, k)

/-- The loop of `uvmalloc`. Above `MAXVA` it panics in `walk`, so the
address does not wrap. -/
def uvmallocLoop (M : Machine) (pagetable oldsz : Nat) :
    Nat → Kmem → Nat → Except KPanic (Bool × Kmem)
  | 0, k, _ => .ok (true, k)
  | n + 1, k, a =>
      match kalloc k with
      | (none, k) => do
          let (_, k) ← uvmdealloc M k pagetable a oldsz
          .ok (false, k)
      | (some mem, k) => do
          let (done, k) ← mappages (k.setPage mem (ByteVec.fill PGSIZE 0)) pagetable a PGSIZE mem
            (PTE_W ||| PTE_X ||| PTE_R ||| PTE_U)
          if done then uvmallocLoop M pagetable oldsz n k (a + PGSIZE)
          else do
            let k ← kfree M k mem
            let (_, k) ← uvmdealloc M k pagetable a oldsz
            .ok (false, k)

def uvmalloc (M : Machine) (k : Kmem) (pagetable oldsz newsz : Nat) : Except KPanic (Nat × Kmem) :=
  if newsz < oldsz then .ok (oldsz, k)
  else do
    let oldsz := PGROUNDUP oldsz
    let (done, k) ← uvmallocLoop M pagetable oldsz ((newsz - oldsz + PGSIZE - 1) / PGSIZE) k oldsz
    .ok (if done then newsz else 0, k)

/-- One round of the loop of `freewalk`; `free` is the recursive call. -/
def freewalkEntry (free : Kmem → Nat → Except KPanic Kmem) (pagetable : Nat) (k : Kmem) (i : Nat) :
    Except KPanic Kmem :=
  let pte := k.pte ⟨pagetable, i⟩
  if pteHas pte PTE_V && !pteHas pte (PTE_R ||| PTE_W ||| PTE_X) then do
    let k ← free k (PTE2PA pte)
    .ok (k.setPte ⟨pagetable, i⟩ 0)
  else if pteHas pte PTE_V then .error .freewalkLeaf
  else .ok k

def freewalk (M : Machine) : Nat → Kmem → Nat → Except KPanic Kmem
  | 0, _, _ => .error .freewalkDepth
  | depth + 1, k, pagetable => do
      let k ← (List.range NPTE).foldlM (freewalkEntry (freewalk M depth) pagetable) k
      kfree M k pagetable

def uvmfree (M : Machine) (k : Kmem) (pagetable sz : Nat) : Except KPanic Kmem := do
  let k ← (if 0 < sz then uvmunmap M k pagetable 0 (PGROUNDUP sz / PGSIZE) true else .ok k)
  freewalk M 3 k pagetable

/-- The loop of `uvmcopy`. -/
def uvmcopyLoop (M : Machine) (old new : Nat) : Nat → Kmem → Nat → Except KPanic (Bool × Kmem)
  | 0, k, _ => .ok (true, k)
  | n + 1, k, i => do
      let (pte, k) ← walk k old i false
      match pte with
      | none => .error .uvmcopyPte
      | some p =>
          if pteHas (k.pte p) PTE_V = false then .error .uvmcopyPresent
          else
            let pa := PTE2PA (k.pte p)
            let flags := PTE_FLAGS (k.pte p)
            match kalloc k with
            | (none, k) => do
                let k ← uvmunmap M k new 0 (i / PGSIZE) true
                .ok (false, k)
            | (some mem, k) => do
                let (done, k) ← mappages (k.setPage mem (k.cell pa)) new i PGSIZE mem flags
                if done then uvmcopyLoop M old new n k (i + PGSIZE)
                else do
                  let k ← kfree M k mem
                  let k ← uvmunmap M k new 0 (i / PGSIZE) true
                  .ok (false, k)

def uvmcopy (M : Machine) (k : Kmem) (old new sz : Nat) : Except KPanic (Bool × Kmem) :=
  uvmcopyLoop M old new ((sz + PGSIZE - 1) / PGSIZE) k 0

def uvmclear (k : Kmem) (pagetable va : Nat) : Except KPanic Kmem := do
  let (pte, k) ← walk k pagetable va false
  match pte with
  | none => .error .uvmclear
  | some p => .ok (k.setPte p (k.pte p &&& (2 ^ 64 - 1 - PTE_U)))

/-! ## Copying to and from user memory -/

/-- The loop of `copyout`; each round copies at least a byte, so the
length of the source bounds their number. -/
def copyoutLoop (pagetable : Nat) : Nat → Kmem → Nat → List ByteVec.Byte → Bool × Kmem
  | _, k, _, [] => (true, k)
  | 0, k, _, _ :: _ => (false, k)
  | fuel + 1, k, dstva, src =>
      let va0 := PGROUNDDOWN dstva
      let pa0 := walkaddr k pagetable va0
      if pa0 = 0 then (false, k)
      else
        let n := PGSIZE - (dstva - va0)
        copyoutLoop pagetable fuel
          (k.setPage pa0 ((k.cell pa0).patch (dstva - va0) (src.take n)))
          ((va0 + PGSIZE) % 2 ^ 64) (src.drop n)

/-- The result is whether it succeeds. -/
def copyout (k : Kmem) (pagetable dstva : Nat) (src : List ByteVec.Byte) : Bool × Kmem :=
  copyoutLoop pagetable src.length k dstva src

/-- The loop of `copyin`. -/
def copyinLoop (k : Kmem) (pagetable : Nat) : Nat → Nat → Nat → Option (List ByteVec.Byte)
  | _, _, 0 => some []
  | 0, _, _ + 1 => none
  | fuel + 1, srcva, len =>
      let va0 := PGROUNDDOWN srcva
      let pa0 := walkaddr k pagetable va0
      if pa0 = 0 then none
      else
        let n := min (PGSIZE - (srcva - va0)) len
        (copyinLoop k pagetable fuel ((va0 + PGSIZE) % 2 ^ 64) (len - n)).map
          ((k.cell pa0).slice (srcva - va0) n ++ ·)

/-- The bytes read, or `none` for an error. -/
def copyin (k : Kmem) (pagetable srcva len : Nat) : Option (List ByteVec.Byte) :=
  copyinLoop k pagetable len srcva len

/-- The loop of `copyinstr`: the bytes copied so far, with the 0 at
their end, are appended to `dst`. -/
def copyinstrLoop (k : Kmem) (pagetable : Nat) :
    Nat → Nat → Nat → List ByteVec.Byte → Bool × List ByteVec.Byte
  | _, _, 0, dst => (false, dst)
  | 0, _, _ + 1, dst => (false, dst)
  | fuel + 1, srcva, max, dst =>
      let va0 := PGROUNDDOWN srcva
      let pa0 := walkaddr k pagetable va0
      if pa0 = 0 then (false, dst)
      else
        let n := min (PGSIZE - (srcva - va0)) max
        let bytes := (k.cell pa0).slice (srcva - va0) n
        if 0 ∈ bytes then (true, dst ++ bytes.takeWhile (· ≠ 0) ++ [0])
        else copyinstrLoop k pagetable fuel ((va0 + PGSIZE) % 2 ^ 64) (max - n) (dst ++ bytes)

/-- What is written to the destination, and whether a 0 was found. -/
def copyinstr (k : Kmem) (pagetable srcva max : Nat) : Bool × List ByteVec.Byte :=
  copyinstrLoop k pagetable max srcva max []

/-! ## The kernel page table -/

def kvmmap (k : Kmem) (kpgtbl va pa sz perm : Nat) : Except KPanic Kmem := do
  let (done, k) ← mappages k kpgtbl va sz pa perm
  if done then .ok k else .error .kvmmap

/-- The loop of `proc_mapstacks`, from process `p` on. -/
def procMapstacks (kpgtbl : Nat) : Nat → Kmem → Nat → Except KPanic Kmem
  | 0, k, _ => .ok k
  | n + 1, k, p =>
      match kalloc k with
      | (none, _) => .error .procMapstacks
      | (some pa, k) => do
          let k ← kvmmap k kpgtbl (KSTACK p) pa PGSIZE (PTE_R ||| PTE_W)
          procMapstacks kpgtbl n k (p + 1)

/-- `kvmmake` for `np` processes. -/
def kvmmake (M : Machine) (np : Nat) (k : Kmem) : Except KPanic (Nat × Kmem) :=
  match kalloc k with
  | (none, _) => .error .nullPointer
  | (some kpgtbl, k) => do
      let k := k.setPage kpgtbl (ByteVec.fill PGSIZE 0)
      let k ← kvmmap k kpgtbl UART0 UART0 PGSIZE (PTE_R ||| PTE_W)
      let k ← kvmmap k kpgtbl VIRTIO0 VIRTIO0 PGSIZE (PTE_R ||| PTE_W)
      let k ← kvmmap k kpgtbl PLIC PLIC 0x400000 (PTE_R ||| PTE_W)
      let k ← kvmmap k kpgtbl KERNBASE KERNBASE (M.etext - KERNBASE) (PTE_R ||| PTE_X)
      let k ← kvmmap k kpgtbl M.etext M.etext (M.phystop - M.etext) (PTE_R ||| PTE_W)
      let k ← kvmmap k kpgtbl TRAMPOLINE M.trampoline PGSIZE (PTE_R ||| PTE_X)
      let k ← procMapstacks kpgtbl np k 0
      .ok (kpgtbl, k)

end Vm

end Xv6
