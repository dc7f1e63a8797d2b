import Xv6.ProcSlot

/-!
# Calls that change one address space

`growproc`, `exec`, `uvmcopy` into a new slot and stores by user code.
None of them panics, and each leaves its slot with a whole address space
of the recorded size, wherever an allocation fails.
-/

namespace Xv6.Vm

open Transfer Radix Multiset Ends Nat
open ByteVec (Byte)

variable {np : Nat}

section Grow

variable {M : Machine} {S : KSys np} {p : Fin np} {t : Table} {pt tf : Nat}

/-- A change of the address space that keeps the size. -/
theorem Lives.reshape_self {k : Kmem} {t' : Table} (h : Lives M S.kmem.cell (S.proc p) t pt tf)
    (hst : (S.proc p).state ≠ .unused)
    (hre : Reshapes M tf S.kmem t (npg (S.proc p).sz) k t' (npg (S.proc p).sz)) :
    SlotStep M S p t (S.setMem k) t' := by
  have hs := h.reshape (S.proc p).sz hst hre
  rwa [show ({ S.proc p with sz := (S.proc p).sz } : Proc np) = S.proc p from rfl,
    show (S.setMem k).setProc p (S.proc p) = S.setMem k from setProc_self (S.setMem k) p] at hs

/-- `growproc` by any amount. The 32-bit copy of the size is the size. -/
theorem growproc_ok (h : Lives M S.kmem.cell (S.proc p) t pt tf) (hst : (S.proc p).state ≠ .unused)
    (hown : Custody M.IsPage S.kmem.toStore (slotPages (S.proc p) t)) (n : Int) :
    ∃ r S' t', growproc M S p n = .ok (r, S') ∧ SlotStep M S p t S' t'
      ∧ SameTies (S.proc p) (S'.proc p) := by
  have hlt := h.size_lt hown
  have hmod : (S.proc p).sz % 2 ^ 32 = (S.proc p).sz := mod_eq_of_lt hlt
  have hnew : (((S.proc p).sz + n) % 2 ^ 32).toNat < 2 ^ 32 := by omega
  unfold growproc
  simp only [hmod]
  generalize (((S.proc p).sz + n) % 2 ^ 32).toNat = newsz at hnew
  split
  · simp_all [h.pagetable]
  rename_i pt' hpt
  obtain rfl : pt = pt' := Option.some.inj (h.pagetable.symm.trans hpt)
  split
  · obtain ⟨r, k', t', hrun, hre, hr, -⟩ := uvmalloc_reshapes (S.proc p).sz newsz h.rep (h.owned hown)
      h.name h.space
    have hrlt : r < 2 ^ 32 := by omega
    rw [hrun, ok_bind]
    simp only [mod_eq_of_lt hrlt]
    by_cases h0 : r = 0
    · subst h0
      exact ⟨-1, _, t', if_pos rfl, h.reshape_self hst hre, .refl _⟩
    · rw [show grown (S.proc p).sz r = r from if_neg h0] at hre
      refine ⟨0, _, t', if_neg h0, h.reshape _ hst hre, ?_⟩
      rw [setProc_proc_self]
      exact ⟨rfl, rfl, rfl⟩
  · split
    · obtain ⟨k', t', hrun, hre⟩ := uvmdealloc_reshapes (S.proc p).sz newsz h.rep (h.owned hown)
        h.name h.space
      rw [hrun, ok_bind]
      simp only [mod_eq_of_lt (lt_of_le_of_lt (min_le_left _ newsz) hlt)]
      refine ⟨0, _, t', rfl, h.reshape _ hst hre, ?_⟩
      rw [setProc_proc_self]
      exact ⟨rfl, rfl, rfl⟩
    · rw [show S.setProc p { S.proc p with sz := (S.proc p).sz } = S from setProc_self S p]
      exact ⟨0, S, t, rfl, ⟨fun _ _ => rfl, rfl, rfl, rfl, .inr ⟨hst, pt, tf, h⟩, .refl ..⟩, .refl _⟩

/-- A store by user code. -/
theorem userStore_ok {S' : KSys np} (h : Lives M S.kmem.cell (S.proc p) t pt tf)
    (hst : (S.proc p).state ≠ .unused)
    (hown : Custody M.IsPage S.kmem.toStore (slotPages (S.proc p) t)) {va : Nat} {b : Byte}
    (hrun : userStore S p va b = some S') :
    SlotStep M S p t S' t ∧ SameTies (S.proc p) (S'.proc p) := by
  unfold userStore at hrun
  simp only [h.pagetable] at hrun
  split at hrun
  · cases hrun
  · rename_i hne
    cases hrun
    have hown' := h.owned hown
    have hmem := h.space.walkaddr_mem h.rep (fun x hx => hown'.left.ok_owned hx) h.name hne
    have hstore := Stores.setPage (k := S.kmem) hmem
      ((S.kmem.cell (walkaddr S.kmem pt va)).patch (va % PGSIZE) [b])
    exact ⟨h.reshape_self hst (hstore.reshapes h.rep hown' h.space), .refl _⟩

/-- `copyout` to the caller. -/
theorem copyout_step (h : Lives M S.kmem.cell (S.proc p) t pt tf)
    (hst : (S.proc p).state ≠ .unused)
    (hown : Custody M.IsPage S.kmem.toStore (slotPages (S.proc p) t)) (va : Nat) (src : List Byte) :
    SlotStep M S p t (S.setMem (copyout S.kmem pt va src).2) t :=
  h.reshape_self hst ((copyout_stores _ h.space h.name h.rep (h.owned hown) src).reshapes h.rep
    (h.owned hown) h.space)

end Grow

/-! ## `exec` -/

section Exec

variable {M : Machine} {S : KSys np} {p : Fin np} {t : Table} {pt tf : Nat}

/-- Pages were taken and given back, and none of the slot's. -/
theorem Lives.frame_moves {k : Kmem} {A : Multiset Nat} (h : Lives M S.kmem.cell (S.proc p) t pt tf)
    (hown : Custody M.IsPage S.kmem.toStore (slotPages (S.proc p) t))
    (hm : Moves S.kmem.toStore 0 k.toStore A) : Lives M k.cell (S.proc p) t pt tf := by
  refine ⟨h.pagetable, h.trapframe, h.rep.frame fun y hy => ?_, h.name, h.space⟩
  refine hm.frame y (notMem_zero y) (hown.notMem_free ?_)
  rw [h.pages]
  exact mem_add.mpr (.inl (mem_add.mpr (.inl hy)))

/-- The trapframe of a new image. -/
def commitFrame (k : Kmem) (tf : Nat) (img : Image) : Kmem :=
  let k := k.setPage tf ((k.cell tf).setWord 8 a1Off img.sp)
  let k := k.setPage tf ((k.cell tf).setWord 8 epcOff img.entry)
  k.setPage tf ((k.cell tf).setWord 8 spOff img.sp)

theorem commitFrame_stores (k : Kmem) (tf : Nat) (img : Image) :
    Stores k {tf} (commitFrame k tf img) :=
  have hself : tf ∈ ({tf} : Multiset Nat) := mem_singleton_self tf
  ((Stores.setPage hself _).trans (.setPage hself _)).trans (.setPage hself _)

/-- The commit: the old address space goes back once the trapframe is
set. -/
theorem execCommit_moves {img : Image} {t' : Table} (k₀ : Kmem)
    (h : Lives M k₀.cell (S.proc p) t pt tf)
    (hown : Custody M.IsPage k₀.toStore (slotPages (S.proc p) t))
    (hm : Moves k₀.toStore 0 S.kmem.toStore (spacePages t' (npg img.sz))) (path : List Byte) :
    Custody M.IsPage (commitFrame S.kmem tf img).toStore
        ({tf} + (spacePages t (npg (S.proc p).sz) + spacePages t' (npg img.sz)))
      ∧ Moves k₀.toStore (spacePages t (npg (S.proc p).sz) + {tf})
        (commitFrame S.kmem tf img).toStore
        ({tf} + (spacePages t (npg (S.proc p).sz) + spacePages t' (npg img.sz)))
      ∧ (∀ y ∈ spacePages t' (npg img.sz), (commitFrame S.kmem tf img).cell y = S.kmem.cell y)
      ∧ ∃ k', execCommit M S p tf pt path img = .ok ((S.setMem k').setProc p
          { S.proc p with name := programName path, pagetable := some img.pagetable, sz := img.sz })
        ∧ Moves (commitFrame S.kmem tf img).toStore (spacePages t (npg (S.proc p).sz))
          k'.toStore 0 := by
  have hsz := h.size_lt hown
  rw [h.pages] at hown
  have hst₁ := commitFrame_stores S.kmem tf img
  -- the new pages, the old ones and the trapframe
  have hm₀ : Moves k₀.toStore (spacePages t (npg (S.proc p).sz) + {tf}) S.kmem.toStore
      ({tf} + (spacePages t (npg (S.proc p).sz) + spacePages t' (npg img.sz))) := by
    refine (hm.add_left _).of_eq (add_zero _) ?_
    rw [add_comm (spacePages t _) {tf}, add_assoc]
  have hown₀ := hown.moves hm₀
  have hm₁ := hst₁.moves.add (spacePages t (npg (S.proc p).sz) + spacePages t' (npg img.sz))
  have hown₁ := hown₀.moves hm₁
  have hkeep₁ : ∀ y ∈ spacePages t (npg (S.proc p).sz) + spacePages t' (npg img.sz),
      (commitFrame S.kmem tf img).cell y = S.kmem.cell y := fun y hy => hown₀.keeps hst₁.moves hy
  have hrep₁ : Rep (commitFrame S.kmem tf img).cell t := h.rep.frame fun y hy => by
    have hy' := mem_add.mpr (.inl hy : y ∈ t.nodes ∨ y ∈ leafPages t 0 (npg (S.proc p).sz))
    rw [hkeep₁ y (mem_add.mpr (.inl hy'))]
    exact hm.frame y (notMem_zero y) (hown.left.notMem_free hy')
  obtain ⟨k₂, hrun₂, hm₂⟩ := procFreepagetable_ok (S.proc p).sz (by omega) hrep₁
    hown₁.right.left h.name h.space
  refine ⟨hown₁, hm₀.trans hm₁, fun y hy => hkeep₁ y (mem_add.mpr (.inr hy)), k₂, ?_, hm₂⟩
  simp only [commitFrame] at hrun₂
  simp only [execCommit, hrun₂, ok_bind]

/-- The new address space takes the place of the old one. -/
theorem execCommit_ok {img : Image} {t' : Table} (k₀ : Kmem)
    (h : Lives M k₀.cell (S.proc p) t pt tf) (hst : (S.proc p).state ≠ .unused)
    (hown : Custody M.IsPage k₀.toStore (slotPages (S.proc p) t))
    (hm : Moves k₀.toStore 0 S.kmem.toStore (spacePages t' (npg img.sz)))
    (hrep : Rep S.kmem.cell t') (hname : t'.name = some img.pagetable)
    (hs : Space M t' tf (npg img.sz)) (path : List Byte) :
    ∃ S', execCommit M S p tf pt path img = .ok S' ∧ SlotStep M (S.setMem k₀) p t S' t'
      ∧ SameTies (S.proc p) (S'.proc p) := by
  obtain ⟨hown₁, hm₁, hkeep₁, k₂, hrun₂, hm₂⟩ := execCommit_moves (S := S) k₀ h hown hm path
  have hrep₂ : Rep k₂.cell t' := hrep.frame fun y hy => by
    have hy' := mem_add.mpr (.inl hy : y ∈ t'.nodes ∨ y ∈ leafPages t' 0 (npg img.sz))
    rw [hown₁.right.keeps hm₂ hy', hkeep₁ y hy']
  have hlives : Lives M k₂.cell { S.proc p with
      name := programName path, pagetable := some img.pagetable, sz := img.sz } t' img.pagetable tf :=
    ⟨rfl, h.trapframe, hrep₂, hname, hs⟩
  refine ⟨_, hrun₂, ?_, ?_⟩
  · refine Lives.step (S := S.setMem k₀) h hlives hst
      ((hm₁.trans ((hm₂.add (spacePages t' (npg img.sz))).add_left {tf})).of_eq rfl ?_)
    rw [zero_add, add_comm]
  · rw [setProc_proc_self]
    exact ⟨rfl, rfl, rfl⟩

/-- The free pages are the same again, and nothing but free pages was
touched. -/
structure Balanced (S S' : KSys np) : Prop where
  rest : S' = S.setMem S'.kmem
  moves : Moves S.kmem.toStore 0 S'.kmem.toStore 0

theorem Balanced.refl (S : KSys np) : Balanced S S := ⟨rfl, .refl ..⟩

theorem exec_ok (h : Lives M S.kmem.cell (S.proc p) t pt tf) (hst : (S.proc p).state ≠ .unused)
    (hown : Custody M.IsPage S.kmem.toStore (slotPages (S.proc p) t))
    (namei : List Byte → Option (List Byte)) (path : List Byte) (argv : List Nat) :
    ∃ r S' t', exec M S p namei path argv = .ok (r, S') ∧ SlotStep M S p t S' t'
      ∧ SameTies (S.proc p) (S'.proc p) ∧ (r = -1 → Balanced S S')
      ∧ ∀ fuel ustack, 2 ^ 20 ≤ fuel → argv.length < MAXARG →
        execWords M fuel ustack S p namei path argv = .ok (r, S') := by
  have hself : SlotStep M S p t S t :=
    ⟨fun _ _ => rfl, rfl, rfl, rfl, .inr ⟨hst, pt, tf, h⟩, .refl ..⟩
  unfold exec execWords
  cases namei path with
  | none => exact ⟨-1, S, t, rfl, hself, .refl _, fun _ => .refl S, fun _ _ _ _ => rfl⟩
  | some content =>
    obtain ⟨r, k, hrun, hl, hwords⟩ := execImage_ok (hown.mono (zero_le _))
      (isPage_lt (h.isPage hown)) content argv
    simp only [h.trapframe, h.pagetable, hrun, ok_bind]
    cases r with
    | none =>
      refine ⟨-1, _, t, rfl, .of_mem (.inr ⟨hst, pt, tf, h.frame_moves hown hl⟩) ?_, .refl _,
        fun _ => ⟨rfl, hl⟩, fun fuel ustack hfuel hlen => ?_⟩
      · exact (hl.add (slotPages (S.proc p) t)).of_eq (zero_add _) (zero_add _)
      · simp only [hwords fuel ustack hfuel hlen, ok_bind]
    | some img =>
      obtain ⟨t', hrep, hname, hs, hm⟩ := hl
      obtain ⟨S', hrun', hstep, hties⟩ := execCommit_ok S.kmem (S := S.setMem k) h hst
        hown hm hrep hname hs path
      refine ⟨argv.length, S', t', ?_, hstep, hties, fun hc => ?_, fun fuel ustack hfuel hlen => ?_⟩
      · simp only [hrun', ok_bind]
      · omega
      · simp only [hwords fuel ustack hfuel hlen, hrun', panics_ok, ok_bind]

/-- Each argument string is fetched into a page of its own. -/
theorem fetchArgs_moves (pt sz uargv : Nat) {n : Nat} : ∀ (k : Kmem) (argv : List Nat),
    Moves k.toStore (argv : Multiset Nat) (fetchArgs pt sz uargv n k argv).2.2.toStore
      ((fetchArgs pt sz uargv n k argv).2.1 : Multiset Nat) := by
  induction n with
  | zero =>
    intro k argv
    exact .refl ..
  | succ n ih =>
    intro k argv
    unfold fetchArgs
    split
    · exact .refl ..
    split
    · exact .refl ..
    split
    · rename_i k₁ he
      rcases kalloc_cases k with ⟨k', he', hk⟩ | ⟨pg, k', he', -⟩
      · constructor <;> grind
      · cases he'.symm.trans he
    · rename_i pg k₁ he
      have hm : Moves k.toStore (argv : Multiset Nat) k₁.toStore ((pg :: argv : List Nat)) := by
        rcases kalloc_cases k with ⟨k', he', -⟩ | ⟨pg', k', he', hm, -⟩
        · cases he'.symm.trans he
        · obtain ⟨rfl, rfl⟩ : pg' = pg ∧ k' = k₁ := by grind
          refine (hm.add (argv : Multiset Nat)).of_eq (zero_add _) ?_
          simp
      have hpg : pg ∈ ((pg :: argv : List Nat) : Multiset Nat) := by simp
      split
      · exact hm.trans (Kmem.moves_setPage hpg _)
      · exact (hm.trans (Kmem.moves_setPage hpg _)).trans (ih _ _)

theorem freeArgs_ok {argv : List Nat} : ∀ {k : Kmem},
    Custody M.IsPage k.toStore (argv : Multiset Nat) →
    ∃ k', freeArgs M argv k = .ok k' ∧ Moves k.toStore (argv : Multiset Nat) k'.toStore 0 := by
  induction argv with
  | nil =>
    intro k _
    exact ⟨k, rfl, .refl ..⟩
  | cons pg argv ih =>
    intro k hown
    have hsplit : ((pg :: argv : List Nat) : Multiset Nat) = {pg} + (argv : Multiset Nat) := by
      simp
    rw [hsplit] at hown ⊢
    obtain ⟨k₁, hk₁, hm₁, -⟩ := kfree_ok (k := k)
      (hown.left.ok_owned (mem_singleton_self pg))
    have hm₁' := (hm₁.add (argv : Multiset Nat)).of_eq rfl (zero_add _)
    obtain ⟨k', hk', hm'⟩ := ih (hown.moves hm₁')
    refine ⟨k', ?_, hm₁'.trans hm'⟩
    rw [freeArgs, hk₁, ok_bind, hk']

/-- Nothing was kept and nothing of the slot was touched. -/
theorem SlotStep.of_balanced {k : Kmem} (hslot : SlotInv M S.kmem.cell (S.proc p) t)
    (hown : Custody M.IsPage S.kmem.toStore (slotPages (S.proc p) t))
    (hm : Moves S.kmem.toStore 0 k.toStore 0) : SlotStep M S p t (S.setMem k) t := by
  refine .of_mem (hslot.frame fun y hy => ?_) ((hm.add _).of_eq (zero_add _) (zero_add _))
  exact hm.frame y (notMem_zero y) (hown.notMem_free hy)

theorem sysExec_ok (h : Lives M S.kmem.cell (S.proc p) t pt tf) (hst : (S.proc p).state ≠ .unused)
    (hown : Custody M.IsPage S.kmem.toStore (slotPages (S.proc p) t))
    (namei : List Byte → Option (List Byte)) (upath uargv : Nat) :
    ∃ r S' t', sysExec M S p namei upath uargv = .ok (r, S') ∧ SlotStep M S p t S' t'
      ∧ SameTies (S.proc p) (S'.proc p) ∧ (r = -1 → Balanced S S')
      ∧ ∀ fuel ustack, 2 ^ 20 ≤ fuel →
        sysExecWords M fuel ustack S p namei upath uargv = .ok (r, S') := by
  have hslot : SlotInv M S.kmem.cell (S.proc p) t := .inr ⟨hst, pt, tf, h⟩
  unfold sysExec sysExecWords
  simp only [h.pagetable]
  rcases copyinstr S.kmem pt upath MAXPATH with ⟨_ | _, bytes⟩
  · exact ⟨-1, S, t, rfl, ⟨fun _ _ => rfl, rfl, rfl, rfl, hslot, .refl ..⟩, .refl _,
      fun _ => .refl S, fun _ _ _ => rfl⟩
  have hm := fetchArgs_moves pt (S.proc p).sz uargv (n := MAXARG) S.kmem []
  rcases he : fetchArgs pt (S.proc p).sz uargv MAXARG S.kmem [] with ⟨_ | _, argv, k₁⟩
  · -- an argument could not be fetched
    rw [he] at hm
    have hm₁ : Moves S.kmem.toStore 0 k₁.toStore (argv.reverse : Multiset Nat) :=
      hm.of_eq rfl (coe_reverse argv).symm
    obtain ⟨k₂, hk₂, hm₂⟩ := freeArgs_ok ((hown.mono (zero_le _)).moves hm₁)
    refine ⟨-1, _, t, ?_, .of_balanced hslot hown (hm₁.trans hm₂), .refl _,
      fun _ => ⟨rfl, hm₁.trans hm₂⟩, fun _ _ _ => ?_⟩
    · simp only [hk₂, ok_bind]
    · simp only [hk₂, panics_ok, ok_bind]
  · rw [he] at hm
    have hm₁ : Moves S.kmem.toStore 0 k₁.toStore (argv.reverse : Multiset Nat) :=
      hm.of_eq rfl (coe_reverse argv).symm
    have hm₁' := (hm₁.add (slotPages (S.proc p) t)).of_eq (zero_add _) rfl
    have hown₁ := hown.moves hm₁'
    obtain ⟨r, S₂, t₂, hrun₂, hstep₂, hties, hfail, hwords⟩ := exec_ok (S := S.setMem k₁) (h.frame_moves hown hm₁)
      hst hown₁.right namei bytes.dropLast argv.reverse
    -- the argument pages are still held
    have hm₂ := hstep₂.moves.add_left (argv.reverse : Multiset Nat)
    have hown₂ := hown₁.moves hm₂
    obtain ⟨k₃, hk₃, hm₃⟩ := freeArgs_ok hown₂.left
    have hm₃' := (hm₃.add (slotPages (S₂.proc p) t₂)).of_eq rfl (zero_add _)
    refine ⟨r, S₂.setMem k₃, t₂, ?_, ⟨hstep₂.others, hstep₂.file, hstep₂.initproc, hstep₂.kpgtbl,
      hstep₂.slot.frame fun y hy => hown₂.keeps hm₃ hy, hm₁'.trans (hm₂.trans hm₃')⟩, hties,
      fun hr => ?_, fun fuel ustack hfuel => ?_⟩
    · simp only [hrun₂, hk₃, ok_bind]
    · obtain ⟨hrest, hm₀⟩ := hfail hr
      refine ⟨congrArg (·.setMem k₃) hrest, hm₁.trans (.trans ?_ hm₃)⟩
      exact (hm₀.add_left (argv.reverse : Multiset Nat)).of_eq (add_zero _) (add_zero _)
    · have hlen := fetchArgs_length he
      simp_all [hk₃, panics_ok, ok_bind]

end Exec

/-! ## Copying an address space -/

section Copy

variable {M : Machine} {k : Kmem} {t told : Table} {old new n qtf : Nat}

/-- `uvmcopy` into an empty address space: a whole copy or none. The
original is not touched. -/
theorem uvmcopy_reshapes (sz : Nat) (hrep : Rep k.cell t) (hold : Rep k.cell told)
    (hown : Custody M.IsPage k.toStore (spacePages t 0 + spacePages told (npg sz)))
    (hname : t.name = some new) (hname' : told.name = some old) (hs : Space M t qtf 0)
    (hu : UserPart told (npg sz)) :
    ∃ done k' t', uvmcopy M k old new sz = .ok (done, k')
      ∧ (done = true → Reshapes M qtf k t 0 k' t' (npg sz)
        ∧ Extends M k t k' t' 0 (npg sz) (oldFlags told) fun key => k.cell (PTE2PA (told.get key)))
      ∧ (done = false → Reshapes M qtf k t 0 k' t' 0) := by
  obtain ⟨done, k', t', hrun, hsucc, hfail⟩ := uvmcopyLoop_ok (M := M) (r := npg sz)
    (fun key => k.cell (PTE2PA (told.get key))) (j := 0) hname' hu hrep hold hown hname hs.user
    (zero_add _) fun _ _ => rfl
  rw [zero_mul] at hrun
  refine ⟨done, k', t', hrun, fun hd => ⟨?_, hsucc hd⟩, fun hd => (hfail hd).reshapes hs⟩
  have hu' := (hsucc hd).userPart hs.user (by rw [zero_add]; exact hu.le) fun key _ h2 =>
    oldFlags_leaf (hu.leaf key (by omega))
  have h := (hsucc hd).reshapes hs hu'
  rwa [zero_add] at h

end Copy

end Xv6.Vm
