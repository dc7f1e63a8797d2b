import Xv6.PipeFiles
import Xv6.ProcCalls

/-!
# Who owns which page

The invariant of a system between calls, with the page tables as ghost
trees: the free list, the kernel's page table and stacks, the process
slots and the pipes together have every page of the allocatable range
once. A step of one slot (`SlotStep`) or of files and pipes (`FileStep`)
keeps it.
-/

namespace Xv6.Vm

open Transfer Radix Tally List

variable {np : Nat}

/-- The pages that `freerange` frees. -/
def allPages (M : Machine) : List Nat :=
  (range ((M.phystop - PGROUNDUP M.kend) / PGSIZE)).map fun i => PGROUNDUP M.kend + i * PGSIZE

/-- The trees of the page tables, and the pages of the kernel stacks. -/
structure Ghost (np : Nat) where
  tree : Fin np → Table
  ktree : Table
  kstack : Fin np → Option Nat

def Ghost.setTree (g : Ghost np) (p : Fin np) (t : Table) : Ghost np :=
  { g with tree := Function.update g.tree p t }

@[simp] theorem Ghost.setTree_tree_self (g : Ghost np) (p : Fin np) (t : Table) :
    (g.setTree p t).tree p = t := Function.update_self ..

theorem Ghost.setTree_tree_ne (g : Ghost np) {p q : Fin np} (t : Table) (h : q ≠ p) :
    (g.setTree p t).tree q = g.tree q := Function.update_of_ne h ..

def kernPages (g : Ghost np) : Multiset Nat :=
  g.ktree.nodes + ∑ p, (g.kstack p).elim 0 fun pa => {pa}

/-- Before `kvminit` there is nothing, after it every slot has a stack
that the kernel's table maps. -/
def KernInv (S : KSys np) (g : Ghost np) : Prop :=
  match S.kpgtbl with
  | none => g.ktree = .nil ∧ ∀ p, g.kstack p = none
  | some pt => Rep S.kmem.cell g.ktree ∧ g.ktree.name = some pt ∧ ∀ p, ∃ pa, g.kstack p = some pa
      ∧ KSTACK p < MAXVA ∧ g.ktree.get (vpn (KSTACK p)) = mapEntry pa (PTE_R ||| PTE_W)

/-- What is not free. -/
def inUse (S : KSys np) (g : Ghost np) : Multiset Nat :=
  kernPages g + ∑ p, slotPages (S.proc p) (g.tree p) + (pipePages S).val

structure KInv (M : Machine) (S : KSys np) (g : Ghost np) (hand : List (Fin NFILE)) : Prop where
  total : (S.kmem.free : Multiset Nat) + inUse S g = (allPages M : Multiset Nat)
  slot : ∀ p, SlotInv M S.kmem.cell (S.proc p) (g.tree p)
  kern : KernInv S g
  file : FileInv S (fds S) hand

section Pages

variable {M : Machine}

theorem mem_allPages {x : Nat} : x ∈ allPages M ↔ M.IsPage x := by
  have hkend := M.kend_le
  have hstop := M.phystop_le
  have hmod : M.phystop % 4096 = 0 := M.phystop_mod
  have hround : PGROUNDUP M.kend = (M.kend + 4095) / 4096 * 4096 := pgroundup_eq (by omega)
  rw [allPages, mem_map, hround]
  constructor
  · rintro ⟨i, hi, rfl⟩
    constructor <;> grind
  · rintro ⟨h1, h2, h3⟩
    have h1' : x % 4096 = 0 := h1
    refine ⟨x / 4096 - (M.kend + 4095) / 4096, mem_range.mpr ?_, ?_⟩
    · grind
    · grind

theorem nodup_allPages (M : Machine) : (allPages M).Nodup := by
  refine List.Nodup.map (fun i j h => ?_) nodup_range
  grind

end Pages

section Custody

variable {M : Machine} {S S' : KSys np} {g : Ghost np} {hand : List (Fin NFILE)} {p q : Fin np}

theorem KInv.owned (h : KInv M S g hand) : Custody M.IsPage S.kmem.toStore (inUse S g) := by
  refine ⟨?_, fun x hx => ?_⟩
  · rw [h.total]
    exact nodup_allPages M
  · rw [h.total] at hx
    exact mem_allPages.mp hx

/-- One slot apart. -/
theorem inUse_split (S : KSys np) (g : Ghost np) (p : Fin np) :
    inUse S g = slotPages (S.proc p) (g.tree p) + (kernPages g
      + ∑ q ∈ Finset.univ.erase p, slotPages (S.proc q) (g.tree q) + (pipePages S).val) := by
  rw [inUse, ← Finset.add_sum_erase _ _ (Finset.mem_univ p), add_left_comm, add_assoc]

theorem KInv.slot_owned (h : KInv M S g hand) (p : Fin np) :
    Custody M.IsPage S.kmem.toStore (slotPages (S.proc p) (g.tree p)) := by
  have hown := h.owned
  rw [inUse_split S g p] at hown
  exact hown.left

theorem KInv.slots_owned (h : KInv M S g hand) (hpq : q ≠ p) :
    Custody M.IsPage S.kmem.toStore
      (slotPages (S.proc p) (g.tree p) + slotPages (S.proc q) (g.tree q)) := by
  have hown := h.owned
  rw [inUse_split S g p, ← Finset.add_sum_erase _ _ (Finset.mem_erase.mpr ⟨hpq, Finset.mem_univ q⟩)]
    at hown
  refine hown.mono (add_le_add_right ?_ _)
  rw [add_left_comm, add_assoc]
  exact Multiset.le_add_right ..

theorem KInv.pipes_owned (h : KInv M S g hand) :
    Custody M.IsPage S.kmem.toStore (pipePages S).val := h.owned.right

/-- The kernel's pages are not touched. -/
theorem KernInv.frame (h : KernInv S g) (hk : S'.kpgtbl = S.kpgtbl)
    (hmem : ∀ y ∈ kernPages g, S'.kmem.cell y = S.kmem.cell y) : KernInv S' g := by
  unfold KernInv at h ⊢
  rw [hk]
  cases hpt : S.kpgtbl with
  | none =>
    rw [hpt] at h
    exact h
  | some pt =>
    rw [hpt] at h
    obtain ⟨hrep, hname, hst⟩ := h
    exact ⟨hrep.frame fun y hy => hmem y (Multiset.mem_add.mpr (.inl hy)), hname, hst⟩

/-- A step of slot `p` that keeps its open files. -/
theorem KInv.slotStep {t' : Table} (h : KInv M S g hand) (hs : SlotStep M S p (g.tree p) S' t')
    (hofile : (S'.proc p).ofile = (S.proc p).ofile) : KInv M S' (g.setTree p t') hand := by
  have hown := h.owned
  rw [inUse_split S g p] at hown
  have hpages : pipePages S' = pipePages S := pipePages_congr (fun f => by rw [hs.file])
    fun f _ => by rw [hs.file]
  have hkeep : ∀ y, y ∈ kernPages g
      + ∑ q ∈ Finset.univ.erase p, slotPages (S.proc q) (g.tree q) + (pipePages S).val →
      S'.kmem.cell y = S.kmem.cell y := fun y hy => hown.keeps hs.moves hy
  have htree : ∀ q ≠ p, (g.setTree p t').tree q = g.tree q := fun q hq => g.setTree_tree_ne t' hq
  have hself : (g.setTree p t').tree p = t' := g.setTree_tree_self p t'
  have hslots : ∑ q ∈ Finset.univ.erase p, slotPages (S'.proc q) ((g.setTree p t').tree q)
      = ∑ q ∈ Finset.univ.erase p, slotPages (S.proc q) (g.tree q) :=
    Finset.sum_congr rfl fun q hq => by
      rw [hs.others q (Finset.ne_of_mem_erase hq), htree q (Finset.ne_of_mem_erase hq)]
  refine ⟨?_, fun q => ?_, ?_, ?_⟩
  · rw [inUse_split S' (g.setTree p t') p, hself, hslots, hpages]
    have hm := (hs.moves.add (kernPages g
      + ∑ q ∈ Finset.univ.erase p, slotPages (S.proc q) (g.tree q) + (pipePages S).val)).conserve
    rw [← h.total, inUse_split S g p]
    exact hm
  · by_cases hq : q = p
    · subst hq
      rw [hself]
      exact hs.slot
    · rw [hs.others q hq, htree q hq]
      refine (h.slot q).frame fun y hy => hkeep y ?_
      refine Multiset.mem_add.mpr (.inl (Multiset.mem_add.mpr (.inr ?_)))
      exact Multiset.mem_sum.mpr ⟨q, Finset.mem_erase.mpr ⟨hq, Finset.mem_univ q⟩, hy⟩
  · exact h.kern.frame hs.kpgtbl fun y hy => hkeep y (Multiset.mem_add.mpr (.inl
      (Multiset.mem_add.mpr (.inl hy))))
  · have hfds : fds S' = fds S := funext fun i => by
      by_cases hi : i.1 = p
      · rw [fds, fds, hi, hofile]
      · rw [fds, fds, hs.others _ hi]
    rw [hfds]
    refine h.file.of_same ⟨fun f => by rw [hs.file], fun f => by rw [hs.file], fun f => by rw [hs.file],
      fun f hf b => ?_⟩ (fun f => by rw [hs.file]; exact h.file.count f)
      fun f hf => h.file.idle f (by rwa [hs.file] at hf)
    rw [KSys.pipeWord, hkeep _ (Multiset.mem_add.mpr (.inr (mem_pipePages.mpr ⟨f, hf, rfl⟩)))]
    rfl

/-- A step of files and pipes. -/
theorem KInv.fileStep {hand' : List (Fin NFILE)} (h : KInv M S g hand) (hs : FileStep S p S')
    (hfile : FileInv S' (fds S') hand') : KInv M S' g hand' := by
  have hown : Custody M.IsPage S.kmem.toStore
      ((pipePages S).val + (kernPages g + ∑ q, slotPages (S.proc q) (g.tree q))) := by
    rw [add_comm]
    exact h.owned
  have hkeep : ∀ y ∈ kernPages g + ∑ q, slotPages (S.proc q) (g.tree q),
      S'.kmem.cell y = S.kmem.cell y := fun y hy => hown.keeps hs.moves hy
  have hsame : ∀ q, (S'.proc q).trapframe = (S.proc q).trapframe ∧ (S'.proc q).sz = (S.proc q).sz
      ∧ (S'.proc q).pagetable = (S.proc q).pagetable ∧ (S'.proc q).state = (S.proc q).state :=
    fun q => by
      by_cases hq : q = p
      · rw [hq, hs.self]
        exact ⟨rfl, rfl, rfl, rfl⟩
      · simp [hs.others q hq]
  have hslots : ∑ q, slotPages (S'.proc q) (g.tree q) = ∑ q, slotPages (S.proc q) (g.tree q) :=
    Finset.sum_congr rfl fun q _ => slotPages_congr (hsame q).1 (hsame q).2.1
  refine ⟨?_, fun q => ?_, ?_, hfile⟩
  · have hm := (hs.moves.add (kernPages g + ∑ q, slotPages (S.proc q) (g.tree q))).conserve
    rw [← h.total, inUse, inUse, hslots, add_comm _ (pipePages S').val, add_comm _ (pipePages S).val]
    exact hm
  · have hframe : SlotInv M S'.kmem.cell (S.proc q) (g.tree q) := (h.slot q).frame fun y hy =>
      hkeep y (Multiset.mem_add.mpr (.inr (Multiset.mem_sum.mpr ⟨q, Finset.mem_univ q, hy⟩)))
    obtain ⟨htf, hsz, hpt, hst⟩ := hsame q
    rcases hframe with hv | ⟨hne, pt, tf, hl⟩
    · exact .inl ⟨hst.trans hv.state, hpt.trans hv.pagetable, htf.trans hv.trapframe,
        hsz.trans hv.sz, hv.tree⟩
    · exact .inr ⟨fun hc => hne (hst.symm.trans hc), pt, tf, hl.congr hpt htf hsz⟩
  · exact h.kern.frame hs.kpgtbl fun y hy => hkeep y (Multiset.mem_add.mpr (.inl hy))

end Custody

end Xv6.Vm
