import Xv6.Sbrk
import Xv6.Trace

/-!
# `fork` copies a process or does nothing

The child of `fork` has a copy of the parent's pages in pages of its own,
the parent's registers with 0 as result, and its size, name, mask,
directory and open files. A file is counted once for each descriptor that
the child has of it: a file that the parent has open twice gains two
references. When `fork` returns -1, wherever it ran out of memory, the
free pages, the counts and the slots are what they were.

After that no process sees what another one stores.
-/

namespace Xv6.Vm

open Transfer Radix StepSystem List Option Nat
open ByteVec (Byte)

variable {np : Nat}

/-! ## What `fork` should do -/

/-- How many of a process's descriptors name the file `f`. -/
def descriptors (x : Proc np) (f : Fin NFILE) : Nat :=
  (finRange NOFILE).countP fun fd => decide (x.ofile fd = some f)

/-- Slot `q` holds a copy of `p`. -/
structure Copied (S : KSys np) (p q : Fin np) (S' : KSys np) : Prop where
  slot : (S.proc q).state = .unused
  others : ∀ r ≠ q, S'.proc r = S.proc r
  parent : SameView S p S'
  sz : (S'.proc q).sz = (S.proc p).sz
  name : (S'.proc q).name = (S.proc p).name
  traceMask : (S'.proc q).traceMask = (S.proc p).traceMask
  cwd : (S'.proc q).cwd = (S.proc p).cwd
  ofile : (S'.proc q).ofile = (S.proc p).ofile
  /-- the same pages are mapped, with the same flags -/
  flags : ∀ key < vpn TRAPFRAME, PTE_FLAGS (userEntry S' q key) = PTE_FLAGS (userEntry S p key)
  fresh : ∀ key < vpn TRAPFRAME, pteHas (userEntry S p key) PTE_V = true →
    PTE2PA (userEntry S' q key) ∈ S.kmem.free
  apart : ∀ key < vpn TRAPFRAME, ∀ key' < vpn TRAPFRAME, pteHas (userEntry S p key) PTE_V = true →
    pteHas (userEntry S p key') PTE_V = true →
    PTE2PA (userEntry S' q key) = PTE2PA (userEntry S' q key') → key = key'
  contents : ∀ key < vpn TRAPFRAME, pteHas (userEntry S p key) PTE_V = true →
    S'.kmem.cell (PTE2PA (userEntry S' q key)) = S.kmem.cell (PTE2PA (userEntry S p key))
  /-- all registers but `a0` -/
  registers : ∃ tf qtf, (S.proc p).trapframe = some tf ∧ (S'.proc q).trapframe = some qtf
    ∧ qtf ∈ S.kmem.free ∧ (S'.kmem.cell qtf).slice 0 trapframeSize
      = ((S.kmem.cell tf).setWord 8 a0Off 0).slice 0 trapframeSize
  files : ∀ f, S'.file f = { S.file f with ref := (S.file f).ref + descriptors (S.proc p) f }
  inodes : ∀ ip, S'.iref ip = S.iref ip + if (S.proc p).cwd = some ip then 1 else 0

/-- Nothing came of it. -/
structure Refused (S : KSys np) (p : Fin np) (S' : KSys np) : Prop where
  parent : SameView S p S'
  procs : ∀ r, (S.proc r).state ≠ .unused → S'.proc r = S.proc r
  unused : ∀ r, (S'.proc r).state = .unused ↔ (S.proc r).state = .unused
  file : S'.file = S.file
  iref : S'.iref = S.iref
  free : S'.kmem.free.Perm S.kmem.free
  pages : ∀ x ∉ S.kmem.free, S'.kmem.cell x = S.kmem.cell x

/-- A store by `a` changes nothing of what `b` sees. -/
def Unseen (S : KSys np) (a b : Fin np) : Prop :=
  ∀ va byte S', userStore S a va byte = some S' → SameView S b S'

/-! ## The counts -/

section Counts

variable {M : Machine} {S S' : KSys np} {p q : Fin np}

theorem freeproc_iref (S : KSys np) (p : Fin np) :
    Ends (fun S' => S'.iref = S.iref) (fun _ => True) (freeproc M S p) :=
  (ends_true _).bind fun _ _ => (ends_true _).bind fun _ _ => rfl

theorem allocproc_iref (S : KSys np) :
    Ends (fun r => r.2.iref = S.iref) (fun _ => True) (allocproc M S) := by
  unfold allocproc
  split
  · exact (rfl : S.iref = S.iref)
  · rename_i q hq
    dsimp only
    split
    · exact (freeproc_iref _ q).bind fun S' hS' => hS'
    · refine (ends_true _).bind fun ⟨pt, k'⟩ _ => ?_
      cases pt with
      | none => exact (freeproc_iref _ q).bind fun S' hS' => hS'
      | some pt => exact (rfl : S.iref = S.iref)

/-- What the loop of `fork` over the descriptors `l` does. -/
structure Duped (S : KSys np) (p q : Fin np) (l : List (Fin NOFILE)) (S' : KSys np) : Prop where
  kmem : S'.kmem = S.kmem
  iref : S'.iref = S.iref
  others : ∀ r ≠ q, S'.proc r = S.proc r
  self : S'.proc q = { S.proc q with ofile := (S'.proc q).ofile }
  ofile : ∀ fd, (S'.proc q).ofile fd =
    if fd ∈ l then ((S.proc p).ofile fd).or ((S.proc q).ofile fd) else (S.proc q).ofile fd
  file : ∀ f, S'.file f = { S.file f with
    ref := (S.file f).ref + l.countP fun fd => decide ((S.proc p).ofile fd = some f) }

theorem dupFiles_duped (hpq : p ≠ q) {l : List (Fin NOFILE)} (hl : l.Nodup) : ∀ {S : KSys np},
    dupFiles p q l S = .ok S' → Duped S p q l S' := by
  induction l with
  | nil =>
    intro S h
    cases h
    exact ⟨rfl, rfl, fun _ _ => rfl, rfl, fun fd => (if_neg not_mem_nil).symm, fun f => rfl⟩
  | cons fd l ih =>
    intro S h
    obtain ⟨hfresh, hl⟩ := nodup_cons.mp hl
    unfold dupFiles at h
    rcases hfd : (S.proc p).ofile fd with _ | f
    · simp only [hfd] at h
      obtain ⟨hk, hip, hothers, hself, hofile, hfile⟩ := ih hl h
      refine ⟨hk, hip, hothers, hself, fun fd' => ?_, fun f => ?_⟩
      · grind
      · rw [hfile f]
        simp [hfd]
    · simp only [hfd] at h
      unfold filedup at h
      split at h
      · cases h
      obtain ⟨hk, hip, hothers, hself, hofile, hfile⟩ := ih hl h
      have hp : ((S.setFile f { S.file f with ref := (S.file f).ref + 1 }).setFd q fd
          (some f)).proc p = S.proc p := setProc_proc_ne _ hpq
      rw [hp] at hofile hfile
      refine ⟨hk, hip, fun r hr => (hothers r hr).trans (setProc_proc_ne _ hr), ?_, fun fd' => ?_,
        fun f' => ?_⟩
      · rw [hself, KSys.setFd, setProc_proc_self]
        rfl
      · rw [hofile fd']
        rcases eq_or_ne fd' fd with rfl | hne
        · simp [hfresh, hfd, setFd_ofile_self]
        · rw [setFd_ofile_ne _ hne]
          simp only [mem_cons, hne, false_or]
          rfl
      · rw [hfile f']
        rcases eq_or_ne f' f with rfl | hne
        · rw [countP_cons_of_pos (by simp [hfd]), ← add_assoc, add_right_comm]
          simp [KSys.setFd, KSys.setProc]
        · simp [hfd, hne.symm, KSys.setFd, KSys.setProc, setFile_ne _ hne]

theorem forkRunnable_iref (S : KSys np) (p q : Fin np) (ip : Nat) :
    (forkRunnable S p q).iref ip = S.iref ip + if (S.proc p).cwd = some ip then 1 else 0 := by
  unfold forkRunnable
  rcases hcwd : (S.proc p).cwd with _ | ip'
  · simp [KSys.setProc]
  · rcases eq_or_ne ip ip' with rfl | hne
    · simp [KSys.setProc]
    · simp [KSys.setProc, hne, hne.symm]

/-- The registers of the child. -/
theorem childFrame_registers (k : Kmem) (tf qtf : Nat) :
    ((childFrame k tf qtf).cell qtf).slice 0 trapframeSize
      = ((k.cell tf).setWord 8 a0Off 0).slice 0 trapframeSize := by
  simp only [childFrame, Kmem.setPage, Function.update_self]
  refine ByteVec.slice_congr fun i _ hi => ?_
  rw [zero_add] at hi
  have hpage : i < PGSIZE := lt_trans hi (by decide)
  rcases Decidable.em (a0Off ≤ i ∧ i < a0Off + 8) with hin | hout
  · rw [ByteVec.setWord, ByteVec.setWord,
      ByteVec.byte_patch_in hin.1 (by simpa using hin.2) hpage 0,
      ByteVec.byte_patch_in hin.1 (by simpa using hin.2) hpage 0]
  · have hout' : i < a0Off ∨ a0Off + (ByteVec.leBytes 8 0).length ≤ i := by
      rw [ByteVec.leBytes_length]
      omega
    rw [ByteVec.setWord, ByteVec.setWord, ByteVec.byte_patch_out hout', ByteVec.byte_patch_out hout',
      ByteVec.byte_patch_in (Nat.zero_le i) (by simpa using hi) hpage 0, Nat.sub_zero,
      ByteVec.slice_getD _ hi, zero_add]

end Counts

/-! ## Failing -/

section Refused

variable {M : Machine} {S S' : KSys np} {g : Ghost np} {p q : Fin np}

/-- Pages that were not free before are as they were, those of `p` among
them. -/
theorem KInv.sameView {A : Multiset Nat} (hi : KInv M S g []) (hst : (S.proc p).state ≠ .unused)
    (hproc : S'.proc p = S.proc p) (hm : Moves S.kmem.toStore 0 S'.kmem.toStore A) :
    SameView S p S' := by
  obtain ⟨pt, tf, hl⟩ := hi.lives hst
  exact hl.sameView (hi.slot_owned p) hproc fun x hx =>
    hm.frame x (Multiset.notMem_zero x) ((hi.slot_owned p).notMem_free hx)

theorem Refused.of_moves (hi : KInv M S g []) (hst : (S.proc p).state ≠ .unused)
    (hu : (S.proc q).state = .unused) (hothers : ∀ r ≠ q, S'.proc r = S.proc r)
    (hu' : (S'.proc q).state = .unused) (hfile : S'.file = S.file) (hiref : S'.iref = S.iref)
    (hm : Moves S.kmem.toStore 0 S'.kmem.toStore 0) : Refused S p S' := by
  have hne : ∀ r, (S.proc r).state ≠ .unused → r ≠ q := fun r hr hc => hr (hc ▸ hu)
  have hfree := hm.conserve
  rw [add_zero, add_zero] at hfree
  refine ⟨hi.sameView hst (hothers p (hne p hst)) hm, fun r hr => hothers r (hne r hr), fun r => ?_,
    hfile, hiref, Multiset.coe_eq_coe.mp hfree, fun x hx => hm.frame x (Multiset.notMem_zero x) hx⟩
  rcases eq_or_ne r q with rfl | hrq
  · exact iff_of_true hu' hu
  · rw [hothers r hrq]

theorem Refused.refl (hi : KInv M S g []) (hst : (S.proc p).state ≠ .unused) : Refused S p S :=
  ⟨hi.sameView hst rfl (.refl ..), fun _ _ => rfl, fun _ => .rfl, rfl, rfl, .refl _, fun _ _ => rfl⟩

/-- No slot, no trapframe or no page table. -/
theorem Allocated.refused (h : Allocated M S none S') (hi : KInv M S g [])
    (hst : (S.proc p).state ≠ .unused) (hiref : S'.iref = S.iref) : Refused S p S' := by
  rcases h with rfl | ⟨q, hu, hs, hself⟩
  · exact .refl hi hst
  · have hvac := hi.vacant hu
    have hm := hs.moves.of_eq
      (show slotPages (S.proc q) .nil = 0 from hvac.tree ▸ hvac.pages)
      (show slotPages (S'.proc q) .nil = 0 from hself ▸ (vacant_cleared _).pages)
    exact .of_moves hi hst hu hs.others (by rw [hself]; rfl) hs.file hiref hm

variable {S₁ : KSys np} {t t₂ : Table} {pt qtf old tf : Nat} {k₂ : Kmem}

/-- No copy. -/
theorem Forking.refused (hf : Forking M S g p q S₁ t pt qtf old tf) (hi : KInv M S g [])
    (hst : (S.proc p).state ≠ .unused) (hiref : S₁.iref = S.iref)
    (hre : Reshapes M qtf S₁.kmem t 0 k₂ t₂ 0) :
    ∃ S', freeproc M (S₁.setMem k₂) q = .ok S' ∧ Refused S p S' := by
  have hpages : slotPages (S₁.proc q) t = spacePages t 0 + {qtf} := by
    rw [hf.child.pages, hf.size]
    rfl
  have hl₂ : Lives M k₂.cell (S₁.proc q) t₂ pt qtf :=
    ⟨hf.child.pagetable, hf.child.trapframe, hre.rep, hre.name.trans hf.child.name, by
      rw [hf.size]
      exact hre.space⟩
  have hpages₂ : slotPages (S₁.proc q) t₂ = spacePages t₂ 0 + {qtf} := by
    rw [hl₂.pages, hf.size]
    rfl
  have hm₂ : Moves S.kmem.toStore 0 k₂.toStore (slotPages (S₁.proc q) t₂) := by
    rw [hpages₂]
    exact hf.moves.trans ((hre.moves.add {qtf}).of_eq hpages.symm rfl)
  have hown := (hi.owned.mono (Multiset.zero_le _)).moves hm₂
  obtain ⟨k, hrun, hm⟩ := freeproc_lives (S := S₁.setMem k₂) (p := q) hl₂ hown
  refine ⟨_, hrun, .of_moves hi hst hf.claimed.unused (fun r hr => ?_) ?_ hf.claimed.file hiref
    (hm₂.trans hm)⟩
  · rw [setProc_proc_ne _ hr]
    exact hf.claimed.others r hr
  · rw [setProc_proc_self]
    rfl

end Refused

/-! ## Copying -/

/-- The child's address space `t'` in `k'`, made from the free pages of
`S`; `told` is the parent's, of `n` pages. -/
structure ChildSpace (M : Machine) (S : KSys np) (told : Table) (n tf : Nat) (k' : Kmem) (t' : Table)
    (pt qtf : Nat) : Prop where
  rep : Rep k'.cell t'
  name : t'.name = some pt
  space : Space M t' qtf n
  moves : Moves S.kmem.toStore 0 k'.toStore (spacePages t' n + {qtf})
  page : ∀ key < n, PTE_FLAGS (t'.get key) = PTE_FLAGS (told.get key)
    ∧ k'.cell (PTE2PA (t'.get key)) = S.kmem.cell (PTE2PA (told.get key))
  registers : (k'.cell qtf).slice 0 trapframeSize
    = ((S.kmem.cell tf).setWord 8 a0Off 0).slice 0 trapframeSize

section Copied

variable {M : Machine} {S S' : KSys np} {g : Ghost np} {p q : Fin np} {S₁ : KSys np}
  {t t₂ t' : Table} {pt qtf old tf : Nat} {k₂ : Kmem}

theorem oldFlags_kept {told : Table} {key : Nat} (h : IsLeaf (told.get key)) (mem : Nat) :
    PTE_FLAGS (mapEntry mem (oldFlags told key)) = PTE_FLAGS (told.get key) := by
  have hodd : PTE_FLAGS (told.get key) % 2 = 1 := by
    have := h.1
    rw [PTE_FLAGS]
    omega
  rw [mapEntry_flags (oldFlags_lt told key), or_v_self hodd]

theorem Forking.childSpace (hf : Forking M S g p q S₁ t pt qtf old tf) (hi : KInv M S g [])
    (hst : (S.proc p).state ≠ .unused)
    (hre : Reshapes M qtf S₁.kmem t 0 k₂ t₂ (npg (S.proc p).sz))
    (hext : Extends M S₁.kmem t k₂ t₂ 0 (npg (S.proc p).sz) (oldFlags (g.tree p))
      fun key => S₁.kmem.cell (PTE2PA ((g.tree p).get key))) :
    ChildSpace M S (g.tree p) (npg (S.proc p).sz) tf (childFrame k₂ tf qtf) t₂ pt qtf := by
  have hpq : p ≠ q := fun hc => hst (hc ▸ hf.claimed.unused)
  have hx : S₁.proc p = S.proc p := hf.claimed.others p hpq
  have hpages : slotPages (S₁.proc q) t = spacePages t 0 + {qtf} := by
    rw [hf.child.pages, hf.size]
    rfl
  have hm₂ : Moves S.kmem.toStore 0 k₂.toStore (spacePages t₂ (npg (S.proc p).sz) + {qtf}) :=
    hf.moves.trans ((hre.moves.add {qtf}).of_eq hpages.symm rfl)
  have hown₂ := (hi.owned.mono (Multiset.zero_le _)).moves hm₂
  have hst₃ := childFrame_stores k₂ tf qtf
  have hkeep : ∀ y ∈ spacePages t₂ (npg (S.proc p).sz),
      (childFrame k₂ tf qtf).cell y = k₂.cell y := fun y hy => by
    rw [add_comm] at hown₂
    exact hown₂.keeps hst₃.moves hy
  -- the parent's pages are not free
  have hown := hi.slot_owned p
  have hlp := hf.parent
  rw [hx] at hlp
  have hold : ∀ y ∈ slotPages (S.proc p) (g.tree p), k₂.cell y = S.kmem.cell y
      ∧ S₁.kmem.cell y = S.kmem.cell y := fun y hy =>
    ⟨hm₂.frame y (Multiset.notMem_zero y) (hown.notMem_free hy),
      hf.moves.frame y (Multiset.notMem_zero y) (hown.notMem_free hy)⟩
  rw [hlp.pages] at hold
  refine ⟨hre.rep.frame fun y hy => hkeep y (Multiset.mem_add.mpr (.inl hy)),
    hre.name.trans hf.child.name, hre.space, hm₂.trans (hst₃.moves.add_left _), fun key hkey => ?_, ?_⟩
  · obtain ⟨mem, hpage, hget, hcell⟩ := hext.new key (zero_le key) (by omega)
    have hleaf := hlp.space.user.leaf key hkey
    have hpa : PTE2PA (t₂.get key) = mem := by rw [hget, isPage_pa hpage (oldFlags_lt _ key)]
    refine ⟨by rw [hget, oldFlags_kept hleaf], ?_⟩
    rw [hkeep _ (Multiset.mem_add.mpr (.inr (mem_leafPages.mpr ⟨key, zero_le key, by omega, rfl⟩))),
      hpa, hcell]
    exact (hold _ (Multiset.mem_add.mpr (.inl (Multiset.mem_add.mpr (.inr
      (mem_leafPages.mpr ⟨key, zero_le key, by omega, rfl⟩)))))).2
  · rw [childFrame_registers, (hold tf (by simp)).1]

/-- What is left of `fork` once the memory is copied. -/
theorem ChildSpace.copied {k' : Kmem} (h : ChildSpace M S (g.tree p) (npg (S.proc p).sz) tf k' t' pt qtf)
    (hi : KInv M S g []) (hst : (S.proc p).state ≠ .unused) (htf : (S.proc p).trapframe = some tf)
    (hu : (S.proc q).state = .unused) (hkmem : S'.kmem = k') (hothers : ∀ r ≠ q, S'.proc r = S.proc r)
    (hself : ∃ x : Proc np, S'.proc q = { x with
      sz := (S.proc p).sz, name := (S.proc p).name, traceMask := (S.proc p).traceMask,
      cwd := (S.proc p).cwd, ofile := (S.proc p).ofile,
      pagetable := some pt, trapframe := some qtf })
    (hfiles : ∀ f, S'.file f = { S.file f with ref := (S.file f).ref + descriptors (S.proc p) f })
    (hinodes : ∀ ip, S'.iref ip = S.iref ip + if (S.proc p).cwd = some ip then 1 else 0) :
    Copied S p q S' := by
  subst hkmem
  obtain ⟨x, hself⟩ := hself
  have hpq : p ≠ q := fun hc => hst (hc ▸ hu)
  obtain ⟨old, tf', hlp⟩ := hi.lives hst
  have hown := (hi.owned.mono (Multiset.zero_le _)).moves h.moves
  have hl : Lives M S'.kmem.cell (S'.proc q) t' pt qtf :=
    ⟨by rw [hself], by rw [hself], h.rep, h.name, by rw [hself]; exact h.space⟩
  have hown' : Custody M.IsPage S'.kmem.toStore (slotPages (S'.proc q) t') := by
    rw [hl.pages, hself]
    exact hown
  have hnew := fun key => hl.userEntry_eq hown' key
  have hold := fun key => hlp.userEntry_eq (hi.slot_owned p) key
  have hfresh : ∀ y ∈ spacePages t' (npg (S.proc p).sz) + {qtf}, y ∈ S.kmem.free := fun y hy => by
    have hc := h.moves.conserve
    rw [add_zero] at hc
    exact Multiset.mem_coe.mp (hc ▸ Multiset.mem_add.mpr (.inr hy))
  -- below the trapframe, what is mapped lies below the size
  have hvalid : ∀ key < USERTOP, pteHas (userEntry S p key) PTE_V = true →
      key < npg (S.proc p).sz := fun key hkey hv => by
    by_contra hge
    rw [hold, hlp.space.user.none key (Nat.le_of_not_lt hge) hkey] at hv
    cases hv
  have hleaf : ∀ {key}, key < npg (S.proc p).sz →
      PTE2PA (t'.get key) ∈ leafPages t' 0 (npg (S.proc p).sz) := fun {key} hkey =>
    mem_leafPages.mpr ⟨key, zero_le key, by omega, rfl⟩
  refine ⟨hu, hothers, hi.sameView hst (hothers p hpq) h.moves, by rw [hself], by rw [hself],
    by rw [hself], by rw [hself], by rw [hself], fun key hkey => ?_, fun key hkey hv => ?_,
    fun key hkey key' hkey' hv hv' heq => ?_, fun key hkey hv => ?_, ?_, hfiles, hinodes⟩
  · rw [hnew, hold]
    rcases lt_or_ge key (npg (S.proc p).sz) with hlt | hge
    · exact (h.page key hlt).1
    · rw [h.space.user.none key hge hkey, hlp.space.user.none key hge hkey]
  · rw [hnew]
    exact hfresh _ (Multiset.mem_add.mpr (.inl (Multiset.mem_add.mpr
      (.inr (hleaf (hvalid key hkey hv))))))
  · rw [hnew, hnew] at heq
    have hlt := hvalid key hkey hv
    have hlt' := hvalid key' hkey' hv'
    exact leafPages_inj hown.left.right.nodup_owned (zero_le _) (by omega) (zero_le _)
      (by omega) heq
  · rw [hnew, hold]
    exact (h.page key (hvalid key hkey hv)).2
  · exact ⟨tf, qtf, htf, by rw [hself], hfresh qtf (by simp), h.registers⟩

theorem Forking.copied (hf : Forking M S g p q S₁ t pt qtf old tf) (hi : KInv M S g [])
    (ht : TieInv S) (hst : (S.proc p).state ≠ .unused) (hiref : S₁.iref = S.iref)
    (hre : Reshapes M qtf S₁.kmem t 0 k₂ t₂ (npg (S.proc p).sz))
    (hext : Extends M S₁.kmem t k₂ t₂ 0 (npg (S.proc p).sz) (oldFlags (g.tree p))
      fun key => S₁.kmem.cell (PTE2PA ((g.tree p).get key))) {r : Int}
    (hrun : forkFinish (S₁.setMem k₂) p q tf qtf = .ok (r, S')) :
    r = (S'.proc q).pid ∧ Copied S p q S' := by
  have hpq : p ≠ q := fun hc => hst (hc ▸ hf.claimed.unused)
  have hx : S₁.proc p = S.proc p := hf.claimed.others p hpq
  have hspace := hf.childSpace hi hst hre hext
  rw [forkFinish_eq] at hrun
  -- the state before the files are duplicated
  obtain ⟨S₃, hS₃⟩ : ∃ S₃, S₃ = ((S₁.setMem k₂).setProc q { (S₁.setMem k₂).proc q with
      sz := ((S₁.setMem k₂).proc p).sz, traceMask := ((S₁.setMem k₂).proc p).traceMask }).setMem
        (childFrame (S₁.setMem k₂).kmem tf qtf) := ⟨_, rfl⟩
  rw [← hS₃] at hrun
  have hp₃ : S₃.proc p = S.proc p := by
    rw [hS₃, setMem_proc, setProc_proc_ne _ hpq, setMem_proc, hx]
  have hq₃ : S₃.proc q = { S.proc q with
      pid := S.nextpid, state := .used, trapframe := some qtf, pagetable := some pt,
      sz := (S.proc p).sz, traceMask := (S.proc p).traceMask } := by
    rw [hS₃, setMem_proc, setProc_proc_self, setMem_proc, hf.self, hx]
    rfl
  have hfile₃ : S₃.file = S.file := by
    rw [hS₃]
    exact hf.claimed.file
  have hiref₃ : S₃.iref = S.iref := by
    rw [hS₃]
    exact hiref
  have hothers₃ : ∀ r ≠ q, S₃.proc r = S.proc r := fun r hr => by
    rw [hS₃, setMem_proc, setProc_proc_ne _ hr]
    exact hf.claimed.others r hr
  obtain ⟨S₄, hdup, hrun⟩ := Ends.bind_ok hrun
  obtain ⟨rfl, rfl⟩ : ((S₄.proc q).pid : Int) = r ∧ forkRunnable S₄ p q = S' := by simpa using hrun
  have hd := dupFiles_duped hpq (nodup_finRange NOFILE) hdup
  obtain ⟨h1, h2, -, -, hq, hothers⟩ := forkRunnable_spec S₄ p q
  have hp₄ : S₄.proc p = S.proc p := (hd.others p hpq).trans hp₃
  have hofile : (S₄.proc q).ofile = (S.proc p).ofile := funext fun fd => by
    have hnone : (S.proc q).ofile fd = none :=
      ht.files q (by rw [hf.claimed.unused]; nofun) fd
    rw [hd.ofile fd, if_pos (mem_finRange fd), hp₃, hq₃, hnone, or_none]
  refine ⟨by rw [hq], hspace.copied hi hst ?_ hf.claimed.unused ?_ (fun r hr => ?_)
    ⟨(forkRunnable S₄ p q).proc q, ?_⟩ (fun f => ?_) fun ip => ?_⟩
  · rw [← hx]
    exact hf.parent.trapframe
  · rw [h1, hd.kmem, hS₃]
    rfl
  · rw [hothers r hr, hd.others r hr, hothers₃ r hr]
  · rw [hq, hd.self, hq₃, hp₄, hofile]
  · rw [h2, hd.file f, hfile₃, hp₃]
    rfl
  · rw [forkRunnable_iref, hp₄, hd.iref, hiref₃]

end Copied

/-! ## Runs -/

section Runs

variable {M : Machine} {S S' : KSys np} {p q : Fin np}

/-- In a sound state a store goes to a page of the one who stores. -/
theorem Sound.unseen {a b : Fin np} (h : Sound M S) (hab : a ≠ b) : Unseen S a b := by
  obtain ⟨g, hi, -⟩ := h
  intro va byte S' hrun
  rcases hi.slot a with hv | ⟨hst, pt, tf, hl⟩
  · rw [userStore, hv.pagetable] at hrun
    cases hrun
  obtain ⟨hs, -⟩ := userStore_ok hl hst (hi.slot_owned a) hrun
  have hproc : S'.proc b = S.proc b := hs.others b hab.symm
  rcases hi.slot b with hv | ⟨-, pt', tf', hl'⟩
  · -- an empty slot sees nothing
    have hsz : PGROUNDUP (S.proc b).sz = 0 := by
      rw [hv.sz, pgroundup_npg (by omega)]
      exact zero_mul _
    refine ⟨hproc, fun tf htf => ?_, fun key => ?_, fun va' hva => absurd (hsz ▸ hva) (not_lt_zero _)⟩
    · rw [hv.trapframe] at htf
      cases htf
    · rw [userEntry, userEntry, hproc, hv.pagetable, elim_none, elim_none]
  · exact hl'.sameView (hi.slot_owned b) hproc fun x hx =>
      (hi.slots_owned (p := a) (q := b) hab.symm).keeps hs.moves hx

/-- `fork` from any sound state. -/
theorem Sound.fork (h : Sound M S) (hp : (S.proc p).state = .runnable) :
    ∃ r S', fork M S p = .ok (r, S') ∧ Sound M S'
      ∧ (r = -1 ∧ Refused S p S' ∨ ∃ q, r = (S'.proc q).pid ∧ Copied S p q S') := by
  obtain ⟨g, hi, ht⟩ := h
  have hst : (S.proc p).state ≠ .unused := by rw [hp]; nofun
  obtain ⟨r, S', g', hrun, hnext⟩ := fork_next hi ht hp
  refine ⟨r, S', hrun, ⟨g', hnext.inv, hnext.ties⟩, ?_⟩
  have hiref : ∀ {r S₁}, allocproc M S = .ok (r, S₁) → S₁.iref = S.iref := fun he =>
    (allocproc_iref S).of_ok he
  rcases fork_cases hi hst with ⟨S₁, hrun₁, halloc, hres⟩
    | ⟨q, S₁, t, pt, qtf, old, tf, k₂, t₂, hf, halloc, hres⟩
  · cases hrun.symm.trans hrun₁
    exact .inl ⟨rfl, hres.refused hi hst (hiref halloc)⟩
  rcases hres with ⟨hrun₁, hre⟩ | ⟨hrun₁, hre, hext⟩
  · obtain ⟨S₂, hfree, href⟩ := hf.refused hi hst (hiref halloc) hre
    simp_all [hfree, Ends.ok_bind]
  · exact .inr ⟨q, hf.copied hi ht hst (hiref halloc) hre hext (hrun₁.symm.trans hrun)⟩

/-- `dup` keeps a state sound. -/
theorem Sound.sysDup (h : Sound M S) (hp : (S.proc p).state = .runnable) (fd : Fin NOFILE) :
    ∃ r S', sysDup S p fd = .ok (r, S') ∧ Sound M S' := by
  obtain ⟨g, hi, ht⟩ := h
  unfold Vm.sysDup
  rcases hfd : (S.proc p).ofile fd with _ | f
  · exact ⟨-1, S, rfl, g, hi, ht⟩
  unfold fdalloc
  rcases hfind : (finRange NOFILE).find? fun fd => decide ((S.proc p).ofile fd = none) with _ | fd'
  · exact ⟨-1, S, rfl, g, hi, ht⟩
  have hfound := find?_some hfind
  obtain ⟨S₁, hrun, hS₁, hi', hs⟩ := hi.dup hfd (of_decide_eq_true hfound)
  subst hS₁
  have hcount : ¬(S.file f).ref < 1 := fun hlt => by
    rw [filedup, if_pos hlt] at hrun
    cases hrun
  obtain ⟨hi', ht', -⟩ := Next.of_call (a := .close p fd) ht hp hi' (.of_file hs) rfl
  refine ⟨fd'.val, _, ?_, g, hi', ht'⟩
  exact congrArg (· >>= _) (if_neg hcount)

/-- Whatever a parent has mapped and open and whatever is free, `fork`
makes a copy that shares no store with the parent, then or later, or
changes nothing. -/
theorem fork_copies_or_refuses (h : Sound M S) (hp : (S.proc p).state = .runnable) :
    ∃ r S', Vm.fork M S p = .ok (r, S')
      ∧ (r = -1 ∧ Refused S p S'
        ∨ ∃ q, r = (S'.proc q).pid ∧ Copied S p q S'
          ∧ ∀ acts T, run (kStep M) S' acts = some T → Unseen T p q ∧ Unseen T q p) := by
  obtain ⟨r, S', hrun, hsound, href | ⟨q, hr, hcopy⟩⟩ := h.fork hp
  · exact ⟨r, S', hrun, .inl href⟩
  have hpq : p ≠ q := fun hc => by
    rw [hc, hcopy.slot] at hp
    cases hp
  refine ⟨r, S', hrun, .inr ⟨q, hr, hcopy, fun acts T hT => ?_⟩⟩
  have hT := run_invariant kStep_sound hsound hT
  exact ⟨hT.unseen hpq, hT.unseen hpq.symm⟩

/-- The first process forks. -/
theorem fork_copies_first : ∃ (S S' : KSys 2) (q : Fin 2),
    Vm.fork smallMachine S 0 = .ok ((S'.proc q).pid, S') ∧ Copied S 0 q S' := by
  obtain ⟨S₀, S, hboot, hrun, hP⟩ := bootRun_spec [(.userinit [19, 5, 0, 0], [])]
    (fun S => decide ((S.proc 0).state = .runnable)
      && (Vm.fork smallMachine S 0).toOption.any fun r : Int × KSys 2 => decide (r.1 ≠ -1))
    (by decide +kernel)
  simp only [Bool.and_eq_true, decide_eq_true_eq] at hP
  obtain ⟨hp, hok⟩ := hP
  obtain ⟨r, S', hfork, ⟨rfl, -⟩ | ⟨q, rfl, hcopy, -⟩⟩ :=
    fork_copies_or_refuses (run_sound hboot hrun) hp
  · rw [hfork] at hok
    simp [Except.toOption] at hok
  · exact ⟨S, S', q, hfork, hcopy⟩

/-- The first process makes a pipe, duplicates its read end and forks: the
file gains two references. -/
theorem fork_counts_twice : ∃ (S₀ S₁ S S' : KSys 2) (r : Int),
    kboot smallMachine 2 zeroMem = .ok S₀
      ∧ run (kStep smallMachine) S₀ [(.userinit [19, 5, 0, 0], []), (.pipe 0 0, [])] = some S₁
      ∧ sysDup S₁ 0 0 = .ok (2, S) ∧ Vm.fork smallMachine S 0 = .ok (r, S') ∧ r ≠ -1
      ∧ (S.proc 0).ofile 0 = some 0 ∧ (S'.file 0).ref = (S.file 0).ref + 2 := by
  obtain ⟨S₀, S₁, hboot, hrun, hP⟩ := bootRun_spec
    [(.userinit [19, 5, 0, 0], []), (.pipe 0 0, [])]
    (fun S₁ => decide ((S₁.proc 0).state = .runnable)
      && (Vm.sysDup S₁ 0 0).toOption.any fun d : Int × KSys 2 =>
        decide (d.1 = 2 ∧ (d.2.proc 0).state = .runnable ∧ (d.2.proc 0).ofile 0 = some 0
          ∧ descriptors (d.2.proc 0) 0 = 2)
        && (Vm.fork smallMachine d.2 0).toOption.any fun r : Int × KSys 2 => decide (r.1 ≠ -1))
    (by decide +kernel)
  rw [Bool.and_eq_true, decide_eq_true_eq] at hP
  obtain ⟨hp, hdup⟩ := hP
  obtain ⟨d, S, hS, hsound⟩ := (run_sound hboot hrun).sysDup hp 0
  rw [hS] at hdup
  obtain ⟨hd, hfork⟩ := (Bool.and_eq_true ..).mp hdup
  obtain ⟨rfl, hp', hfd, htwo⟩ := of_decide_eq_true hd
  obtain ⟨r, S', hrun', -, ⟨rfl, -⟩ | ⟨q, rfl, hcopy⟩⟩ := hsound.fork hp'
  · rw [hrun'] at hfork
    simp [Except.toOption] at hfork
  · simp_all [hcopy.files 0]

end Runs

end Xv6.Vm
