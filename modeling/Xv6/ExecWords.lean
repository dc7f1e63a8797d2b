import Xv6.ProcMem
import Xv6.VmMap

/-!
# `exec` with its loops and its array

The loops of `uvmalloc` and `loadseg` are given elsewhere by the number of
their rounds, and the array `ustack` by a list. Here the loops test their
counters, which wrap around in their C types, and `ustack` has `MAXARG`
elements. A loop that is not done when its fuel is used up, and a store
past the end of the array, are faults.

Bounded by the free pages and by the pages that are mapped, the loops end
with what their counted forms give.
-/

namespace Xv6.Vm

open List Ends Nat

open ByteVec (Byte leBytes)
open Transfer Radix

inductive ExecFault where
  | panic (e : KPanic)
  | endless
  | ustack

def panics {α : Type} (r : Except KPanic α) : Except ExecFault α := r.mapError .panic

/-! ## Growing -/

/-- `for(a = oldsz; a < newsz; a += PGSIZE)`. -/
def uvmallocWhile (M : Machine) (pagetable oldsz newsz : Nat) :
    Nat → Kmem → Nat → Except ExecFault (Bool × Kmem)
  | 0, _, _ => .error .endless
  | fuel + 1, k, a =>
      if a < newsz then
        match kalloc k with
        | (none, k) => do
            let (_, k) ← panics (uvmdealloc M k pagetable a oldsz)
            .ok (false, k)
        | (some mem, k) => do
            let (done, k) ← panics (mappages (k.setPage mem (ByteVec.fill PGSIZE 0)) pagetable a
              PGSIZE mem (PTE_W ||| PTE_X ||| PTE_R ||| PTE_U))
            if done then uvmallocWhile M pagetable oldsz newsz fuel k ((a + PGSIZE) % 2 ^ 64)
            else do
              let k ← panics (kfree M k mem)
              let (_, k) ← panics (uvmdealloc M k pagetable a oldsz)
              .ok (false, k)
      else .ok (true, k)

def uvmallocWords (M : Machine) (fuel : Nat) (k : Kmem) (pagetable oldsz newsz : Nat) :
    Except ExecFault (Nat × Kmem) :=
  if newsz < oldsz then .ok (oldsz, k)
  else do
    let oldsz := PGROUNDUP oldsz
    let (done, k) ← uvmallocWhile M pagetable oldsz newsz fuel k oldsz
    .ok (if done then newsz else 0, k)

/-! ## Loading -/

/-- `for(i = 0; i < sz; i += PGSIZE)`, with `uint` counters. -/
def loadsegWhile (pagetable va : Nat) (content : List Byte) (offset sz : Nat) :
    Nat → Kmem → Nat → Except ExecFault (Bool × Kmem)
  | 0, _, _ => .error .endless
  | fuel + 1, k, i =>
      if i < sz then
        let pa := walkaddr k pagetable ((va + i) % 2 ^ 64)
        if pa = 0 then .error (.panic .loadseg)
        else
          let n := if sz - i < PGSIZE then sz - i else PGSIZE
          let data := readi content ((offset + i) % 2 ^ 32) n
          let k := k.setPage pa ((k.cell pa).patch 0 data)
          if data.length ≠ n then .ok (false, k)
          else loadsegWhile pagetable va content offset sz fuel k ((i + PGSIZE) % 2 ^ 32)
      else .ok (true, k)

/-- The loop over the program headers. -/
def loadWords (M : Machine) (fuel pagetable : Nat) (content : List Byte) :
    Nat → Kmem → Nat → Nat → Except ExecFault (Bool × Nat × Kmem)
  | 0, k, _, sz => .ok (true, sz, k)
  | rounds + 1, k, off, sz =>
      let bytes := readi content (off % 2 ^ 32) proghdrSize
      let ph := Proghdr.decode bytes
      if bytes.length ≠ proghdrSize then .ok (false, sz, k)
      else if ph.type ≠ ELF_PROG_LOAD then
        loadWords M fuel pagetable content rounds k (off + proghdrSize) sz
      else if ph.memsz < ph.filesz then .ok (false, sz, k)
      else if (ph.vaddr + ph.memsz) % 2 ^ 64 < ph.vaddr then .ok (false, sz, k)
      else do
        let (sz1, k) ← uvmallocWords M fuel k pagetable sz ((ph.vaddr + ph.memsz) % 2 ^ 64)
        if sz1 = 0 then .ok (false, sz, k)
        else if ph.vaddr % PGSIZE ≠ 0 then .ok (false, sz1, k)
        else do
          let (done, k) ← loadsegWhile pagetable ph.vaddr content (ph.off % 2 ^ 32)
            (ph.filesz % 2 ^ 32) fuel k 0
          if done then loadWords M fuel pagetable content rounds k (off + proghdrSize) sz1
          else .ok (false, sz1, k)

/-! ## The arguments -/

abbrev Ustack : Type := Fin MAXARG → Nat

/-- `ustack[i] = w`. -/
def storeUstack (ustack : Ustack) (i w : Nat) : Except ExecFault Ustack :=
  if h : i < MAXARG then .ok (Function.update ustack ⟨i, h⟩ w) else .error .ustack

/-- The loop over the arguments and the 0 behind their addresses. -/
def pushArgsWords (pushArg : Kmem → Nat → Nat → Option Nat × Kmem) :
    List Nat → Kmem → Nat → Nat → Ustack →
    Except ExecFault (Option (Nat × Nat × Ustack) × Kmem)
  | [], k, sp, argc, ustack => do
      let ustack ← storeUstack ustack argc 0
      .ok (some (sp, argc, ustack), k)
  | a :: argv, k, sp, argc, ustack =>
      if MAXARG ≤ argc then .ok (none, k)
      else
        match pushArg k sp a with
        | (none, k) => .ok (none, k)
        | (some sp, k) => do
            let ustack ← storeUstack ustack argc sp
            pushArgsWords pushArg argv k sp (argc + 1) ustack

def pushStackWords (pagetable stackbase : Nat) (ustack : Ustack) (argv : List Nat) (k : Kmem)
    (sp : Nat) : Except ExecFault (Option Nat × Kmem) := do
  match ← pushArgsWords (pushArg pagetable stackbase) argv k sp 0 ustack with
  | (none, k) => .ok (none, k)
  | (some (sp, argc, ustack), k) =>
      .ok (push pagetable stackbase k sp ((argc + 1) * 8)
        (((ofFn ustack).take (argc + 1)).flatMap (leBytes 8)))

/-! ## The new image -/

def execStackWords (M : Machine) (fuel : Nat) (ustack : Ustack) (k : Kmem)
    (pagetable sz entry : Nat) (argv : List Nat) : Except ExecFault (Option Image × Kmem) := do
  let sz := PGROUNDUP sz
  let (sz1, k) ← uvmallocWords M fuel k pagetable sz (sz + 2 * PGSIZE)
  if sz1 = 0 then panics (execBad M k pagetable sz)
  else do
    let k ← panics (uvmclear k pagetable (sz1 - 2 * PGSIZE))
    match ← pushStackWords pagetable (sz1 - PGSIZE) ustack argv k sz1 with
    | (none, k) => panics (execBad M k pagetable sz1)
    | (some sp, k) => .ok (some ⟨pagetable, sz1, entry, sp⟩, k)

/-- `exec` on a file up to the commit. -/
def execImageWords (M : Machine) (fuel : Nat) (ustack : Ustack) (k : Kmem) (trapframe : Nat)
    (content : List Byte) (argv : List Nat) : Except ExecFault (Option Image × Kmem) :=
  let bytes := readi content 0 elfhdrSize
  let elf := Elfhdr.decode bytes
  if bytes.length ≠ elfhdrSize ∨ elf.magic ≠ ELF_MAGIC then .ok (none, k)
  else do
    let (pagetable, k) ← panics (procPagetable M k trapframe)
    match pagetable with
    | none => .ok (none, k)
    | some pagetable => do
        let (done, sz, k) ← loadWords M fuel pagetable content elf.phnum k elf.phoff 0
        if done then execStackWords M fuel ustack k pagetable sz elf.entry argv
        else panics (execBad M k pagetable sz)

variable {np : Nat}

def execWords (M : Machine) (fuel : Nat) (ustack : Ustack) (S : KSys np) (p : Fin np)
    (namei : List Byte → Option (List Byte)) (path : List Byte) (argv : List Nat) :
    Except ExecFault (Int × KSys np) :=
  match namei path with
  | none => .ok (-1, S)
  | some content =>
      match (S.proc p).trapframe, (S.proc p).pagetable with
      | some tf, some old => do
          let (img, k) ← execImageWords M fuel ustack S.kmem tf content argv
          match img with
          | none => .ok (-1, S.setMem k)
          | some img => do
              let S ← panics (execCommit M (S.setMem k) p tf old path img)
              .ok (argv.length, S)
      | _, _ => .error (.panic .nullPointer)

def sysExecWords (M : Machine) (fuel : Nat) (ustack : Ustack) (S : KSys np) (p : Fin np)
    (namei : List Byte → Option (List Byte)) (upath uargv : Nat) :
    Except ExecFault (Int × KSys np) :=
  match (S.proc p).pagetable with
  | none => .error (.panic .nullPointer)
  | some pt =>
      match copyinstr S.kmem pt upath MAXPATH with
      | (false, _) => .ok (-1, S)
      | (true, bytes) =>
          match fetchArgs pt (S.proc p).sz uargv MAXARG S.kmem [] with
          | (false, argv, k) => do
              let k ← panics (freeArgs M argv.reverse k)
              .ok (-1, S.setMem k)
          | (true, argv, k) => do
              let (r, S) ← execWords M fuel ustack (S.setMem k) p namei bytes.dropLast argv.reverse
              let k ← panics (freeArgs M argv.reverse S.kmem)
              .ok (r, S.setMem k)

/-! ## The loops end -/

section Ends

variable {k k' : Kmem} {pt : Nat} {done : Bool}

theorem panics_ok {α : Type} (a : α) : panics (.ok a) = .ok a := rfl

theorem panics_bind {α β : Type} (x : Except KPanic α) (f : α → Except KPanic β) :
    panics (x >>= f) = panics x >>= fun a => panics (f a) := by
  cases x <;> rfl

theorem kalloc_free_le (k : Kmem) : (kalloc k).2.free.length ≤ k.free.length := by
  rcases kalloc_cases k with ⟨k', he, hk⟩ | ⟨pg, k', he, -, hlen⟩
  · rw [he, hk]
  · grind

theorem walkLoop_free_le (va : Nat) (alloc : Bool) (level : Nat) :
    ∀ (k : Kmem) (pagetable : Nat),
      (walkLoop va alloc level k pagetable).2.free.length ≤ k.free.length := by
  induction level with
  | zero => exact fun k _ => le_refl _
  | succ level ih =>
    intro k pagetable
    have halloc := kalloc_free_le k
    unfold walkLoop
    simp only
    split
    · exact ih ..
    split
    · split
      · grind
      · rename_i pg k₁ he
        rw [he] at halloc
        exact le_trans (ih ..) halloc
    · exact le_refl _

theorem mappagesLoop_high {a : Nat} (h : MAXVA ≤ a) (perm n pa : Nat) :
    mappagesLoop pt perm (n + 1) k a pa = .error .walk := by
  rw [mappagesLoop, walk, if_pos h]
  rfl

/-- Mapping a page takes pages from the free list at most, and the page
lies below `MAXVA`. -/
theorem mappages_page_ok {va pa perm : Nat} (hmod : va % 4096 = 0)
    (h : mappages k pt va PGSIZE pa perm = .ok (done, k')) :
    va < MAXVA ∧ k'.free.length ≤ k.free.length := by
  have hva : va < MAXVA := by
    by_contra hge
    have hround : PGROUNDDOWN va = va := by
      show va / 4096 * 4096 = va
      omega
    simp_all [mappages, hround, mappagesLoop_high (Nat.le_of_not_lt hge)]
  refine ⟨hva, ?_⟩
  have hfree := walkLoop_free_le va true 2 k pt
  rw [mappages_one k pt pa perm hmod hva, mappagesLoop, walk, if_neg (not_le.mpr hva),
    ok_bind] at h
  rcases hw : walkLoop va true 2 k pt with ⟨_ | p, k₁⟩
  · grind
  · rw [hw] at h hfree
    simp only [mappagesLoop] at h
    split at h
    · cases h
    · cases h
      exact hfree

theorem rounds_succ {a newsz : Nat} (h : a < newsz) : (newsz - a + PGSIZE - 1) / PGSIZE
    = (newsz - (a + PGSIZE) + PGSIZE - 1) / PGSIZE + 1 := by
  show (newsz - a + 4096 - 1) / 4096 = (newsz - (a + 4096) + 4096 - 1) / 4096 + 1
  omega

theorem rounds_zero {a newsz : Nat} (h : newsz ≤ a) : (newsz - a + PGSIZE - 1) / PGSIZE = 0 := by
  show (newsz - a + 4095) / 4096 = 0
  omega

theorem next_page {a : Nat} (h : a < MAXVA) : (a + PGSIZE) % 2 ^ 64 = a + PGSIZE := by grind

/-- Every round takes a page, so the counter never comes near its end. -/
theorem uvmallocWhile_eq (M : Machine) (oldsz newsz fuel : Nat) : ∀ {k : Kmem} {a : Nat},
    a % 4096 = 0 → k.free.length < fuel →
    uvmallocWhile M pt oldsz newsz fuel k a
      = panics (uvmallocLoop M pt oldsz ((newsz - a + PGSIZE - 1) / PGSIZE) k a) := by
  induction fuel with
  | zero => exact fun _ h => absurd h (not_lt_zero _)
  | succ fuel ih =>
    intro k a hmod hfuel
    by_cases hlt : a < newsz
    · rw [uvmallocWhile, if_pos hlt, rounds_succ hlt, uvmallocLoop]
      rcases kalloc_cases k with ⟨k₁, he, -⟩ | ⟨mem, k₁, he, -, hlen⟩
      · simp only [he, panics_bind]
        rfl
      · simp only [he, panics_bind]
        cases hmap : mappages (k₁.setPage mem (ByteVec.fill PGSIZE 0)) pt a PGSIZE mem
            (PTE_W ||| PTE_X ||| PTE_R ||| PTE_U) with
        | error e => rfl
        | ok r =>
          obtain ⟨hva, hfree⟩ := mappages_page_ok hmod hmap
          have hfree' : r.2.free.length ≤ k₁.free.length := hfree
          show (if r.1 then _ else _) = panics (if r.1 then _ else _)
          cases r.1 with
          | true =>
            grind
          | false =>
            simp only [Bool.false_eq_true, if_false, panics_bind]
            rfl
    · rw [uvmallocWhile, if_neg hlt, rounds_zero (Nat.le_of_not_lt hlt)]
      rfl

theorem uvmallocWords_eq (M : Machine) {fuel : Nat} (hfuel : k.free.length < fuel)
    (oldsz newsz : Nat) :
    uvmallocWords M fuel k pt oldsz newsz = panics (uvmalloc M k pt oldsz newsz) := by
  unfold uvmallocWords uvmalloc
  split
  · rfl
  · have hmod : PGROUNDUP oldsz % 4096 = 0 := mul_mod_left ..
    simp only [uvmallocWhile_eq M _ _ fuel hmod hfuel, panics_bind]
    rfl

/-- The segment ends a page before the counter does. -/
theorem loadsegWhile_eq (va : Nat) (content : List Byte) (offset : Nat) {sz : Nat}
    (hsz : sz + 4096 ≤ 2 ^ 32) (fuel : Nat) : ∀ {k : Kmem} {i : Nat},
    (sz - i + PGSIZE - 1) / PGSIZE < fuel →
    loadsegWhile pt va content offset sz fuel k i
      = panics (loadsegLoop pt va content offset sz ((sz - i + PGSIZE - 1) / PGSIZE) k i) := by
  induction fuel with
  | zero => exact fun h => absurd h (not_lt_zero _)
  | succ fuel ih =>
    intro k i hfuel
    by_cases hlt : i < sz
    · have hnext : (i + PGSIZE) % 2 ^ 32 = i + PGSIZE :=
        mod_eq_of_lt (show i + 4096 < 2 ^ 32 by omega)
      rw [rounds_succ hlt] at hfuel ⊢
      have hrest := fun k => ih (k := k) (lt_of_succ_lt_succ hfuel)
      rw [loadsegWhile, if_pos hlt, loadsegLoop]
      simp only [hnext, hrest]
      generalize (if sz - i < PGSIZE then sz - i else PGSIZE) = n
      split
      · rfl
      split
      · rfl
      · rfl
    · rw [loadsegWhile, if_neg hlt, rounds_zero (Nat.le_of_not_lt hlt)]
      rfl

/-! ## The array -/

/-- The array starts with the addresses pushed so far. -/
def Filled (ustack : Ustack) (pushed : List Nat) : Prop :=
  ∀ i : Fin MAXARG, i.val < pushed.length → pushed[i.val]? = some (ustack i)

theorem Filled.take {ustack : Ustack} {pushed : List Nat} (h : Filled ustack pushed)
    (hlen : pushed.length ≤ MAXARG) : (ofFn ustack).take pushed.length = pushed := by
  refine ext_getElem? fun i => ?_
  rcases lt_or_ge i pushed.length with hi | hi
  · have hmax : i < MAXARG := lt_of_lt_of_le hi hlen
    rw [List.getElem?_take_of_lt hi, h ⟨i, hmax⟩ hi, List.getElem?_ofFn, dif_pos hmax]
  · grind

/-- A store inside the array, right behind what it starts with. -/
theorem Filled.store {ustack : Ustack} {pushed : List Nat} (h : Filled ustack pushed)
    (hlen : pushed.length < MAXARG) (w : Nat) :
    ∃ ustack', storeUstack ustack pushed.length w = .ok ustack'
      ∧ Filled ustack' (pushed ++ [w]) := by
  refine ⟨_, dif_pos hlen, fun i hi => ?_⟩
  rcases lt_or_ge i.val pushed.length with hlt | hge
  · have hne : i ≠ ⟨pushed.length, hlen⟩ := fun hc => by grind
    rw [getElem?_append_left hlt, Function.update_of_ne hne]
    exact h i hlt
  · grind

/-- The two loops over the arguments end alike. -/
def PushedAs : Option (Nat × List Nat) × Kmem → Option (Nat × Nat × Ustack) × Kmem → Prop
  | (none, k), r => r = (none, k)
  | (some (sp, pushed), k), r => ∃ ustack, r = (some (sp, pushed.length, ustack), k)
      ∧ pushed.length < MAXARG ∧ Filled ustack (pushed.reverse ++ [0])

/-- The vector of `sys_exec` ends with a 0, so it has room for one. -/
theorem fetchArgs_length {pt sz uargv n : Nat} {argv' : List Nat} {k' : Kmem} :
    ∀ {k : Kmem} {argv : List Nat}, fetchArgs pt sz uargv n k argv = (true, argv', k') →
    argv'.length < argv.length + n := by
  induction n with
  | zero => exact fun h => by cases h
  | succ n ih =>
    intro k argv h
    unfold fetchArgs at h
    grind

theorem pushArgsWords_ok (pushArg : Kmem → Nat → Nat → Option Nat × Kmem) (argv : List Nat) :
    ∀ (k : Kmem) (sp : Nat) (pushed : List Nat) {ustack : Ustack}, Filled ustack pushed.reverse →
    pushed.length + argv.length < MAXARG →
    ∃ r, pushArgsWords pushArg argv k sp pushed.length ustack = .ok r
      ∧ PushedAs (pushArgs pushArg argv k sp pushed) r := by
  induction argv with
  | nil =>
    intro k sp pushed ustack hfill hlen
    obtain ⟨ustack', hstore, hfill'⟩ := hfill.store (by rwa [length_reverse]) 0
    rw [length_reverse] at hstore
    refine ⟨_, ?_, ustack', rfl, hlen, hfill'⟩
    rw [pushArgsWords, hstore]
    rfl
  | cons a argv ih =>
    intro k sp pushed ustack hfill hlen
    rw [length_cons] at hlen
    have hroom : ¬ MAXARG ≤ pushed.length := by omega
    rw [pushArgsWords, pushArgs, if_neg hroom, if_neg hroom]
    rcases hpush : pushArg k sp a with ⟨_ | sp', k'⟩
    · exact ⟨_, rfl, rfl⟩
    · obtain ⟨ustack', hstore, hfill'⟩ := hfill.store (by
        rw [length_reverse]
        exact Nat.lt_of_not_le hroom) sp'
      rw [← reverse_cons] at hfill'
      obtain ⟨r, hrun, hr⟩ := ih k' sp' (sp' :: pushed) hfill' (by
        rw [length_cons]
        omega)
      simp_all [hstore, ok_bind]

theorem pushStackWords_eq (base : Nat) {argv : List Nat} (hlen : argv.length < MAXARG)
    (ustack : Ustack) (k : Kmem) (sp : Nat) :
    pushStackWords pt base ustack argv k sp = .ok (pushStack pt base argv k sp) := by
  obtain ⟨r, hrun, hr⟩ := pushArgsWords_ok (pushArg pt base) argv k sp []
    (show Filled ustack [] from fun i hi => absurd hi (not_lt_zero _)) (by rwa [length_nil, zero_add])
  rw [length_nil] at hrun
  rw [pushStackWords, hrun, ok_bind, pushStack]
  rcases hargs : pushArgs (pushArg pt base) argv k sp [] with ⟨_ | ⟨sp', pushed⟩, k'⟩
  · rw [hargs] at hr
    rw [show r = (none, k') from hr]
  · rw [hargs] at hr
    obtain ⟨ustack', rfl, hmax, hfill⟩ := hr
    have htake := hfill.take (by
      rw [length_append, length_reverse]
      exact hmax)
    grind

end Ends

end Xv6.Vm
