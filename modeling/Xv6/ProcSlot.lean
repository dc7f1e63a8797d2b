import Xv6.ProcMem
import Xv6.VmExec

/-!
# The memory of one process

A slot of the process table is vacant, or it has a trapframe and an
address space of its own. The functions of `proc.c` that give a slot
memory, take it back or change it are described one slot at a time:
which pages the slot takes from and gives to the free ones (`SlotStep`).
What other slots own is not touched.
-/

namespace Xv6.Vm

open Transfer Radix Multiset Ends
open ByteVec (Byte)

variable {np : Nat}

/-- Nothing of a process is left in the slot. -/
structure Vacant (x : Proc np) (t : Table) : Prop where
  state : x.state = .unused
  pagetable : x.pagetable = none
  trapframe : x.trapframe = none
  sz : x.sz = 0
  tree : t = .nil

/-- The slot has a trapframe `tf` and the address space `t`, rooted at
`pt`. -/
structure Lives (M : Machine) (mem : Nat → Page) (x : Proc np) (t : Table) (pt tf : Nat) : Prop where
  pagetable : x.pagetable = some pt
  trapframe : x.trapframe = some tf
  rep : Rep mem t
  name : t.name = some pt
  space : Space M t tf (npg x.sz)

def SlotInv (M : Machine) (mem : Nat → Page) (x : Proc np) (t : Table) : Prop :=
  Vacant x t ∨ x.state ≠ .unused ∧ ∃ pt tf, Lives M mem x t pt tf

/-- The pages a slot owns. -/
def slotPages (x : Proc np) (t : Table) : Multiset Nat :=
  spacePages t (npg x.sz) + x.trapframe.elim 0 fun tf => {tf}

variable {k : Kmem}

section Slot

variable {M : Machine} {mem mem' : Nat → Page} {x x' : Proc np} {t t' : Table} {pt tf : Nat}

theorem Vacant.pages (h : Vacant x t) : slotPages x t = 0 := by
  rw [slotPages, h.sz, h.trapframe, h.tree, spacePages, Trie.nodes_nil]
  rfl

theorem Lives.pages (h : Lives M mem x t pt tf) :
    slotPages x t = spacePages t (npg x.sz) + {tf} := by
  rw [slotPages, h.trapframe]
  rfl

/-- A slot sees only its own pages. -/
theorem SlotInv.frame (h : SlotInv M mem x t) (hmem : ∀ y ∈ slotPages x t, mem' y = mem y) :
    SlotInv M mem' x t := by
  rcases h with h | ⟨hst, pt, tf, h⟩
  · exact .inl h
  · refine .inr ⟨hst, pt, tf, h.pagetable, h.trapframe, h.rep.frame fun y hy => hmem y ?_, h.name,
      h.space⟩
    exact mem_add.mpr (.inl (mem_add.mpr (.inl hy)))

/-- Only what an address space reads of a slot matters. -/
theorem Lives.congr (h : Lives M mem x t pt tf) (h₁ : x'.pagetable = x.pagetable)
    (h₂ : x'.trapframe = x.trapframe) (h₃ : x'.sz = x.sz) : Lives M mem x' t pt tf :=
  ⟨h₁.trans h.pagetable, h₂.trans h.trapframe, h.rep, h.name, h₃ ▸ h.space⟩

theorem slotPages_congr (h₂ : x'.trapframe = x.trapframe) (h₃ : x'.sz = x.sz) :
    slotPages x' t = slotPages x t := by
  rw [slotPages, slotPages, h₂, h₃]

theorem Lives.owned (h : Lives M k.cell x t pt tf)
    (hown : Custody M.IsPage k.toStore (slotPages x t)) :
    Custody M.IsPage k.toStore (spacePages t (npg x.sz)) := by
  rw [h.pages] at hown
  exact hown.left

theorem Lives.isPage (h : Lives M k.cell x t pt tf)
    (hown : Custody M.IsPage k.toStore (slotPages x t)) : M.IsPage tf := by
  rw [h.pages] at hown
  exact hown.ok_owned (mem_add.mpr (.inr (mem_singleton_self tf)))

/-- A size is below 4 GiB: its pages are pages of memory. -/
theorem Lives.size_lt (h : Lives M k.cell x t pt tf)
    (hown : Custody M.IsPage k.toStore (slotPages x t)) : x.sz < 2 ^ 32 := by
  have := Space.count h.name (h.owned hown)
  exact size_lt_of_npg _ (by omega)

end Slot

/-- What a call did to slot `p`, with the address space `t` before and
`t'` after. The numbers of processes and of inode references are not
looked at. -/
structure SlotStep (M : Machine) (S : KSys np) (p : Fin np) (t : Table) (S' : KSys np) (t' : Table) :
    Prop where
  others : ∀ q ≠ p, S'.proc q = S.proc q
  file : S'.file = S.file
  initproc : S'.initproc = S.initproc
  kpgtbl : S'.kpgtbl = S.kpgtbl
  slot : SlotInv M S'.kmem.cell (S'.proc p) t'
  moves : Moves S.kmem.toStore (slotPages (S.proc p) t) S'.kmem.toStore (slotPages (S'.proc p) t')

/-- The ties of a slot to other slots and to open files. -/
structure SameTies (x x' : Proc np) : Prop where
  state : x'.state = x.state
  parent : x'.parent = x.parent
  ofile : x'.ofile = x.ofile

section Step

variable {M : Machine} {S S' S'' : KSys np} {p : Fin np} {t t' t'' : Table} {pt tf : Nat}

theorem SameTies.refl (x : Proc np) : SameTies x x := ⟨rfl, rfl, rfl⟩

theorem setProc_self (S : KSys np) (p : Fin np) : S.setProc p (S.proc p) = S := by
  rw [KSys.setProc, Function.update_eq_self]

@[simp] theorem setProc_proc_self (S : KSys np) (p : Fin np) (x : Proc np) :
    (S.setProc p x).proc p = x := Function.update_self ..

@[simp] theorem setProc_kmem (S : KSys np) (p : Fin np) (x : Proc np) :
    (S.setProc p x).kmem = S.kmem := rfl

@[simp] theorem setMem_kmem (S : KSys np) (k : Kmem) : (S.setMem k).kmem = k := rfl

@[simp] theorem setMem_proc (S : KSys np) (k : Kmem) : (S.setMem k).proc = S.proc := rfl

@[simp] theorem setMem_setMem (S : KSys np) (k k' : Kmem) :
    (S.setMem k).setMem k' = S.setMem k' := rfl

@[simp] theorem setProc_setProc (S : KSys np) (p : Fin np) (x x' : Proc np) :
    (S.setProc p x).setProc p x' = S.setProc p x' := by
  simp only [KSys.setProc, Function.update_idem]

/-- The memory is kept in front of the slots. -/
@[simp] theorem setProc_setMem (S : KSys np) (p : Fin np) (x : Proc np) (k : Kmem) :
    (S.setProc p x).setMem k = (S.setMem k).setProc p x := rfl

theorem setProc_proc_ne {q : Fin np} (x : Proc np) (h : q ≠ p) : (S.setProc p x).proc q = S.proc q :=
  Function.update_of_ne h ..

/-- The memory and the slot are overwritten. -/
theorem SlotStep.of_set {x : Proc np} (hslot : SlotInv M k.cell x t')
    (hm : Moves S.kmem.toStore (slotPages (S.proc p) t) k.toStore (slotPages x t')) :
    SlotStep M S p t ((S.setMem k).setProc p x) t' := by
  refine ⟨fun q hq => setProc_proc_ne x hq, rfl, rfl, rfl, ?_, ?_⟩
  · rw [setProc_proc_self]
    exact hslot
  · rw [setProc_proc_self]
    exact hm

/-- Only the memory is overwritten. -/
theorem SlotStep.of_mem (hslot : SlotInv M k.cell (S.proc p) t')
    (hm : Moves S.kmem.toStore (slotPages (S.proc p) t) k.toStore (slotPages (S.proc p) t')) :
    SlotStep M S p t (S.setMem k) t' :=
  ⟨fun _ _ => rfl, rfl, rfl, rfl, hslot, hm⟩

/-- One address space after another. -/
theorem Lives.step {k : Kmem} {x : Proc np} {pt' tf' : Nat}
    (h : Lives M S.kmem.cell (S.proc p) t pt tf) (h' : Lives M k.cell x t' pt' tf')
    (hst : x.state ≠ .unused)
    (hm : Moves S.kmem.toStore (spacePages t (npg (S.proc p).sz) + {tf}) k.toStore
      (spacePages t' (npg x.sz) + {tf'})) :
    SlotStep M S p t ((S.setMem k).setProc p x) t' :=
  .of_set (.inr ⟨hst, pt', tf', h'⟩) (hm.of_eq h.pages.symm h'.pages.symm)

/-- The address space of a slot changes to a new size. -/
theorem Lives.reshape (sz : Nat) (h : Lives M S.kmem.cell (S.proc p) t pt tf)
    (hst : (S.proc p).state ≠ .unused)
    (hre : Reshapes M tf S.kmem t (npg (S.proc p).sz) k t' (npg sz)) :
    SlotStep M S p t ((S.setMem k).setProc p { S.proc p with sz := sz }) t' := by
  have h' : Lives M k.cell { S.proc p with sz := sz } t' pt tf :=
    ⟨h.pagetable, h.trapframe, hre.rep, hre.name.trans h.name, hre.space⟩
  exact h.step h' hst (hre.moves.add _)

/-! ## Freeing a slot -/

/-- What `freeproc` leaves of a slot. -/
def Proc.cleared (x : Proc np) : Proc np :=
  { x with
    trapframe := none
    pagetable := none
    sz := 0
    pid := 0
    parent := none
    name := []
    killed := false
    xstate := 0
    state := .unused }

theorem vacant_cleared (x : Proc np) : Vacant x.cleared .nil := ⟨rfl, rfl, rfl, rfl, rfl⟩

theorem SlotStep.of_cleared (hm : Moves S.kmem.toStore (slotPages (S.proc p) t) k.toStore 0) :
    SlotStep M S p t ((S.setMem k).setProc p (S.proc p).cleared) .nil :=
  .of_set (.inl (vacant_cleared _)) (hm.of_eq rfl (vacant_cleared _).pages.symm)

/-- `freeproc` of a slot with an address space. -/
theorem freeproc_lives (h : Lives M S.kmem.cell (S.proc p) t pt tf)
    (hown : Custody M.IsPage S.kmem.toStore (slotPages (S.proc p) t)) :
    ∃ k, freeproc M S p = .ok ((S.setMem k).setProc p (S.proc p).cleared)
      ∧ Moves S.kmem.toStore (slotPages (S.proc p) t) k.toStore 0 := by
  have hsz := h.size_lt hown
  have hpages := h.pages
  rw [hpages] at hown
  obtain ⟨k₁, hk₁, hm₁, -⟩ := kfree_ok (k := S.kmem)
    (hown.ok_owned (mem_add.mpr (.inr (mem_singleton_self tf))))
  have hm₁' : Moves S.kmem.toStore (spacePages t (npg (S.proc p).sz) + {tf}) k₁.toStore
      (spacePages t (npg (S.proc p).sz)) := (hm₁.add_left _).of_eq rfl (add_zero _)
  have hswap : Custody M.IsPage S.kmem.toStore ({tf} + spacePages t (npg (S.proc p).sz)) :=
    add_comm (spacePages t _) {tf} ▸ hown
  obtain ⟨k₂, hk₂, hm₂⟩ := procFreepagetable_ok _ (by omega)
    (h.rep.frame fun y hy => hswap.keeps hm₁ (mem_add.mpr (.inl hy))) (hown.moves hm₁')
    h.name h.space
  refine ⟨k₂, ?_, ?_⟩
  · unfold freeproc
    simp only [h.trapframe, h.pagetable, hk₁, hk₂, ok_bind]
    rfl
  · rw [hpages]
    exact hm₁'.trans hm₂

/-- `freeproc` of a slot without an address space. -/
theorem freeproc_bare (tf : Nat) (htf : (S.proc p).trapframe = some tf) (hpt : (S.proc p).pagetable = none)
    (hpage : M.IsPage tf) :
    ∃ k, freeproc M S p = .ok ((S.setMem k).setProc p (S.proc p).cleared)
      ∧ Moves S.kmem.toStore {tf} k.toStore 0 := by
  obtain ⟨k, hk, hm, -⟩ := kfree_ok (k := S.kmem) hpage
  refine ⟨k, ?_, hm⟩
  unfold freeproc
  simp only [htf, hpt, hk, ok_bind]
  rfl

theorem freeproc_empty (htf : (S.proc p).trapframe = none) (hpt : (S.proc p).pagetable = none) :
    freeproc M S p = .ok (S.setProc p (S.proc p).cleared) := by
  unfold freeproc
  simp only [htf, hpt, ok_bind]
  rfl

end Step

/-! ## Allocating a slot -/

section Alloc

variable {M : Machine} {S S' : KSys np}

/-- A slot as `allocproc` returns it. -/
def Proc.allocated (x : Proc np) (pid pt tf : Nat) : Proc np :=
  { x with pid := pid, state := .used, trapframe := some tf, pagetable := some pt }

/-- What `allocproc` did: nothing, a slot claimed and cleared again, or a
slot with a trapframe and an empty address space. -/
def Allocated (M : Machine) (S : KSys np) (r : Option (Fin np)) (S' : KSys np) : Prop :=
  match r with
  | none => S' = S ∨ ∃ q, (S.proc q).state = .unused ∧ SlotStep M S q .nil S' .nil
      ∧ S'.proc q = (S.proc q).cleared
  | some q => (S.proc q).state = .unused ∧ ∃ t pt tf, SlotStep M S q .nil S' t
      ∧ Lives M S'.kmem.cell (S'.proc q) t pt tf
      ∧ S'.proc q = (S.proc q).allocated S.nextpid pt tf

theorem allocproc_ok (hown : Custody M.IsPage S.kmem.toStore 0)
    (hvac : ∀ q, (S.proc q).state = .unused → Vacant (S.proc q) .nil) :
    ∃ r S', allocproc M S = .ok (r, S') ∧ Allocated M S r S' := by
  unfold allocproc
  cases hfind : (List.finRange np).find? fun p => decide ((S.proc p).state = .unused) with
  | none => exact ⟨none, S, rfl, .inl rfl⟩
  | some q =>
    have hunused : (S.proc q).state = .unused := by grind
    have hvacq := hvac q hunused
    -- the number is taken whatever follows
    let S₁ : KSys np := { S with nextpid := S.nextpid + 1 }
    have hclaim : claimProc S q = S₁.setProc q { S.proc q with
      pid := S.nextpid, state := .used } := rfl
    have hstep : ∀ {k : Kmem} {x : Proc np} {t : Table}, SlotInv M k.cell x t →
        Moves S.kmem.toStore 0 k.toStore (slotPages x t) →
        SlotStep M S q .nil ((S₁.setMem k).setProc q x) t := fun hslot hm => by
      have h := SlotStep.of_set (S := S₁) (p := q) (t := .nil) hslot (by
        rw [hvacq.pages]
        exact hm)
      exact ⟨h.others, h.file, h.initproc, h.kpgtbl, h.slot, h.moves⟩
    have hclear : ∀ {k : Kmem}, Moves S.kmem.toStore 0 k.toStore 0 →
        Allocated M S none ((S₁.setMem k).setProc q (S.proc q).cleared) := fun hm =>
      .inr ⟨q, hunused, hstep (.inl (vacant_cleared _)) (hm.of_eq rfl (vacant_cleared _).pages.symm),
        setProc_proc_self ..⟩
    simp only [hclaim, setProc_kmem]
    rcases kalloc_cases S.kmem with ⟨k, he, hk⟩ | ⟨tf, k, he, hm, -⟩
    · -- no trapframe
      rw [show kalloc S₁.kmem = (none, k) from he]
      simp only [setProc_setMem, setProc_proc_self, setProc_setProc]
      rw [freeproc_empty (by rw [setProc_proc_self])
        (by rw [setProc_proc_self]; exact hvacq.pagetable), setProc_proc_self, setProc_setProc]
      exact ⟨none, _, rfl, hclear (hk ▸ .refl _ _)⟩
    · rw [show kalloc S₁.kmem = (some tf, k) from he]
      simp only [setProc_setMem, setProc_proc_self, setProc_setProc, setProc_kmem, setMem_kmem,
        setMem_setMem]
      have hown₁ := hown.moves hm
      have hpage : M.IsPage tf := hown₁.ok_owned (mem_singleton_self tf)
      obtain ⟨r, k', hrun, hres⟩ := procPagetable_ok (k := k) (hown₁.mono (zero_le _))
        (isPage_lt hpage)
      rw [hrun, ok_bind]
      simp only
      rcases hres with ⟨rfl, hm'⟩ | ⟨pt, t, rfl, hrep, hname, hs, hm'⟩
      · -- no address space
        have hm₂ : Moves S.kmem.toStore 0 k'.toStore {tf} :=
          hm.trans ((hm'.add {tf}).of_eq (zero_add _) (zero_add _))
        obtain ⟨k'', hrun'', hm''⟩ := freeproc_bare (M := M) (p := q) tf
          (S := (S₁.setMem k').setProc q { S.proc q with
            pid := S.nextpid, state := .used, trapframe := some tf, pagetable := none })
          (by rw [setProc_proc_self]) (by rw [setProc_proc_self]) hpage
        rw [hrun'', setProc_proc_self, setProc_setMem, setProc_setProc, setMem_setMem]
        exact ⟨none, _, rfl, hclear (hm₂.trans hm'')⟩
      · have hlives : Lives M k'.cell ((S.proc q).allocated S.nextpid pt tf) t pt tf :=
          ⟨rfl, rfl, hrep, hname, (by
            rw [show ((S.proc q).allocated S.nextpid pt tf).sz = 0 from hvacq.sz]
            exact hs)⟩
        have hm₂ : Moves S.kmem.toStore 0 k'.toStore
            (slotPages ((S.proc q).allocated S.nextpid pt tf) t) := by
          rw [hlives.pages, show ((S.proc q).allocated S.nextpid pt tf).sz = 0 from hvacq.sz]
          exact hm.trans ((hm'.add {tf}).of_eq (zero_add _) (by
            rw [spacePages, show leafPages t 0 (npg 0) = 0 from rfl, add_zero]))
        refine ⟨some q, _, rfl, hunused, t, pt, tf, hstep (.inr ⟨by rintro ⟨⟩, pt, tf, hlives⟩) hm₂, ?_,
          setProc_proc_self ..⟩
        rw [setProc_proc_self]
        exact hlives

end Alloc

end Xv6.Vm
