import Xv6.MemInv

/-!
# What each call does to the pages

Every call by a running process ends, without a panic, in a state where
each page is owned once. Slots it has nothing to do with are spared:
what they own, and the files they have open, stay as they are.
-/

namespace Xv6.Vm

open Transfer Radix Tally Ends
open ByteVec (Byte leBytes)

variable {np : Nat}

/-- The ties between slots, between calls. -/
structure TieInv (S : KSys np) : Prop where
  parent : ∀ q r, (S.proc q).parent = some r →
    (S.proc q).state ≠ .unused ∧ (S.proc r).state = .runnable
  init : ∀ r, S.initproc = some r → (S.proc r).state = .runnable
  files : ∀ q, (S.proc q).state ≠ .runnable → ∀ fd, (S.proc q).ofile fd = none

/-- The slot whose memory or files a call is about. -/
def KAct.changes : KAct np → Option (Fin np)
  | .exit p _ | .exec p _ _ _ | .sbrk p _ | .pipe p _ | .close p _ => some p
  | _ => none

/-- What a call by `c` leaves of a slot that it has nothing to do with. -/
structure Spared (c : Option (Fin np)) (S : KSys np) (g : Ghost np) (S' : KSys np) (g' : Ghost np)
    (r : Fin np) : Prop where
  state : (S'.proc r).state = (S.proc r).state
  trapframe : (S'.proc r).trapframe = (S.proc r).trapframe
  sz : (S'.proc r).sz = (S.proc r).sz
  ofile : (S'.proc r).ofile = (S.proc r).ofile
  parent : (S.proc r).parent = none ∨ (S.proc r).parent ≠ c →
    (S'.proc r).parent = (S.proc r).parent
  tree : g'.tree r = g.tree r
  kept : ∀ fd f, (S.proc r).ofile fd = some f →
    (S'.file f).type = (S.file f).type ∧ (S'.file f).pipe = (S.file f).pipe

/-- A slot is given up in this step. -/
def Reaped (S S' : KSys np) (r : Fin np) : Prop :=
  (S.proc r).state ≠ .unused ∧ (S'.proc r).state = .unused

structure Next (M : Machine) (S : KSys np) (g : Ghost np) (a : KAct np) (S' : KSys np)
    (g' : Ghost np) : Prop where
  inv : KInv M S' g' []
  ties : TieInv S'
  spared : ∀ r, a.changes ≠ some r → (S.proc r).state ≠ .unused → ¬Reaped S S' r →
    Spared a.caller S g S' g' r
  reaped : ∀ r, Reaped S S' r → (S.proc r).parent = a.caller ∧ ∀ q, Reaped S S' q → q = r
  kern : kernPages g' = kernPages g

section Ties

variable {S S' : KSys np} {p : Fin np}

theorem TieInv.of_same (h : TieInv S) (hinit : S'.initproc = S.initproc)
    (hs : ∀ q, SameTies (S.proc q) (S'.proc q)) : TieInv S' := by
  refine ⟨fun q r hr => ?_, fun r hr => ?_, fun q hq fd => ?_⟩
  · rw [(hs q).parent] at hr
    rw [(hs q).state, (hs r).state]
    exact h.parent q r hr
  · rw [hinit] at hr
    rw [(hs r).state]
    exact h.init r hr
  · rw [(hs q).state] at hq
    rw [(hs q).ofile]
    exact h.files q hq fd

/-- Processes are in slots with an address space. -/
theorem KInv.lives {M : Machine} {g : Ghost np} {hand : List (Fin NFILE)} (h : KInv M S g hand)
    (hp : (S.proc p).state ≠ .unused) :
    ∃ pt tf, Lives M S.kmem.cell (S.proc p) (g.tree p) pt tf := by
  rcases h.slot p with hv | ⟨-, pt, tf, hl⟩
  · exact absurd hv.state hp
  · exact ⟨pt, tf, hl⟩

theorem KInv.vacant {M : Machine} {g : Ghost np} {hand : List (Fin NFILE)} (h : KInv M S g hand)
    (hp : (S.proc p).state = .unused) : Vacant (S.proc p) (g.tree p) := by
  rcases h.slot p with hv | ⟨hne, -⟩
  · exact hv
  · exact absurd hp hne

end Ties

/-! ## Calls on the caller's memory -/

section Own

variable {M : Machine} {S S' : KSys np} {g : Ghost np} {p : Fin np} {t' : Table} {a : KAct np}

/-- A step of the caller's slot that keeps its ties. -/
theorem Next.of_slot (hi : KInv M S g []) (ht : TieInv S)
    (hs : SlotStep M S p (g.tree p) S' t') (hties : SameTies (S.proc p) (S'.proc p))
    (hown : a.changes = some p ∨ (S'.proc p = S.proc p ∧ t' = g.tree p)) :
    Next M S g a S' (g.setTree p t') := by
  have hall : ∀ q, SameTies (S.proc q) (S'.proc q) := fun q => by
    by_cases hq : q = p
    · exact hq ▸ hties
    · rw [hs.others q hq]
      exact .refl _
  refine ⟨hi.slotStep hs hties.ofile, ht.of_same hs.initproc hall, fun r hr _ _ => ?_,
    fun r hr => ?_, rfl⟩
  · have hproc : S'.proc r = S.proc r ∧ (g.setTree p t').tree r = g.tree r := by
      by_cases hrp : r = p
      · simp_all
      · exact ⟨hs.others r hrp, Function.update_of_ne hrp ..⟩
    obtain ⟨hx, htree⟩ := hproc
    exact ⟨by rw [hx], by rw [hx], by rw [hx], by rw [hx], fun _ => by rw [hx], htree,
      fun fd f _ => by rw [hs.file]; exact ⟨rfl, rfl⟩⟩
  · exact absurd ((hall r).state.symm.trans hr.2) hr.1

theorem sysSbrk_next (hi : KInv M S g []) (ht : TieInv S) (hp : (S.proc p).state = .runnable)
    (n : Int) :
    ∃ r S' g', sysSbrk M S p n = .ok (r, S') ∧ Next M S g (.sbrk p n) S' g' := by
  have hst : (S.proc p).state ≠ .unused := by rw [hp]; nofun
  obtain ⟨pt, tf, hl⟩ := hi.lives hst
  obtain ⟨r, S', t', hrun, hs, hties⟩ := growproc_ok hl hst (hi.slot_owned p) n
  refine ⟨if r < 0 then -1 else toInt32 ((S.proc p).sz % 2 ^ 32), S', _, ?_,
    .of_slot hi ht hs hties (.inl rfl)⟩
  unfold sysSbrk
  simp only [hrun, ok_bind]

theorem sysExec_next (hi : KInv M S g []) (ht : TieInv S) (hp : (S.proc p).state = .runnable)
    (namei : List Byte → Option (List Byte)) (upath uargv : Nat) :
    ∃ r S' g', sysExec M S p namei upath uargv = .ok (r, S')
      ∧ Next M S g (.exec p namei upath uargv) S' g' := by
  have hst : (S.proc p).state ≠ .unused := by rw [hp]; nofun
  obtain ⟨pt, tf, hl⟩ := hi.lives hst
  obtain ⟨r, S', t', hrun, hs, hties, -⟩ := sysExec_ok hl hst (hi.slot_owned p) namei upath uargv
  exact ⟨r, S', _, hrun, .of_slot hi ht hs hties (.inl rfl)⟩

theorem userStore_next (hi : KInv M S g []) (ht : TieInv S) (hp : (S.proc p).state = .runnable)
    {va : Nat} {b : Byte} (hrun : userStore S p va b = some S') :
    ∃ g', Next M S g (.store p va b) S' g' := by
  have hst : (S.proc p).state ≠ .unused := by rw [hp]; nofun
  obtain ⟨pt, tf, hl⟩ := hi.lives hst
  obtain ⟨hs, hties⟩ := userStore_ok hl hst (hi.slot_owned p) hrun
  refine ⟨_, .of_slot hi ht hs hties (.inr ⟨?_, rfl⟩)⟩
  unfold userStore at hrun
  simp only [hl.pagetable] at hrun
  split at hrun
  · cases hrun
  · cases hrun
    rfl

end Own

/-! ## Calls on files -/

/-- What a call by `p` can do to others through files and its own
memory. -/
structure CallStep (S : KSys np) (p : Fin np) (S' : KSys np) : Prop where
  others : ∀ q ≠ p, S'.proc q = S.proc q
  state : (S'.proc p).state = (S.proc p).state
  parent : (S'.proc p).parent = (S.proc p).parent
  initproc : S'.initproc = S.initproc
  kept : ∀ q ≠ p, ∀ fd f, (S.proc q).ofile fd = some f →
    (S'.file f).type = (S.file f).type ∧ (S'.file f).pipe = (S.file f).pipe

section Files

variable {M : Machine} {S S' S'' : KSys np} {g g' : Ghost np} {p : Fin np} {a : KAct np}
  {hand : List (Fin NFILE)}

theorem CallStep.of_file (h : FileStep S p S') : CallStep S p S' :=
  ⟨h.others, by rw [h.self], by rw [h.self], h.initproc, h.kept⟩

theorem CallStep.trans (h₁ : CallStep S p S') (h₂ : CallStep S' p S'') : CallStep S p S'' := by
  refine ⟨fun q hq => (h₂.others q hq).trans (h₁.others q hq), h₂.state.trans h₁.state,
    h₂.parent.trans h₁.parent, h₂.initproc.trans h₁.initproc, fun q hq fd f hf => ?_⟩
  obtain ⟨ht₁, hp₁⟩ := h₁.kept q hq fd f hf
  obtain ⟨ht₂, hp₂⟩ := h₂.kept q hq fd f (by rw [h₁.others q hq]; exact hf)
  grind

theorem Next.of_call (ht : TieInv S) (hp : (S.proc p).state = .runnable) (hi' : KInv M S' g [])
    (hs : CallStep S p S') (hown : a.changes = some p) : Next M S g a S' g := by
  have hstate : ∀ q, (S'.proc q).state = (S.proc q).state ∧ (S'.proc q).parent = (S.proc q).parent :=
    fun q => by
      by_cases hq : q = p
      · rw [hq]
        exact ⟨hs.state, hs.parent⟩
      · rw [hs.others q hq]
        exact ⟨rfl, rfl⟩
  refine ⟨hi', ⟨fun q r hr => ?_, fun r hr => ?_, fun q hq fd => ?_⟩, fun r hr _ _ => ?_,
    fun r hr => ?_, rfl⟩
  · rw [(hstate q).2] at hr
    rw [(hstate q).1, (hstate r).1]
    exact ht.parent q r hr
  · rw [hs.initproc] at hr
    rw [(hstate r).1]
    exact ht.init r hr
  · rw [(hstate q).1] at hq
    have hqp : q ≠ p := fun hc => hq (hc ▸ hp)
    rw [hs.others q hqp]
    exact ht.files q hq fd
  · have hrp : r ≠ p := fun hc => hr (hc ▸ hown)
    have hx := hs.others r hrp
    exact ⟨by rw [hx], by rw [hx], by rw [hx], by rw [hx], fun _ => by rw [hx], rfl,
      fun fd f hf => hs.kept r hrp fd f hf⟩
  · exact absurd ((hstate r).1.symm.trans hr.2) hr.1

theorem fds_of_proc (h : S'.proc = S.proc) : fds S' = fds S := funext fun i => by
  rw [fds, h]
  rfl

/-- A file in hand is closed. -/
theorem fileclose_hand {f : Fin NFILE} (hi : KInv M S g (f :: hand)) (p : Fin np) :
    ∃ S', fileclose M S f = .ok S' ∧ KInv M S' g hand ∧ CallStep S p S' := by
  obtain ⟨S', hrun, hproc, hinv, hstep⟩ := fileclose_ok (M := M) (p := p) hi.file (fun _ _ _ => rfl)
    hi.pipes_owned
  exact ⟨S', hrun, hi.fileStep hstep (by rw [fds_of_proc hproc]; exact hinv), .of_file hstep⟩

/-- A descriptor is emptied, its file is in hand. -/
theorem KInv.take {f : Fin NFILE} {fd : Fin NOFILE} (hi : KInv M S g hand)
    (hfd : (S.proc p).ofile fd = some f) : KInv M (S.setFd p fd none) g (f :: hand) := by
  have htake := hi.file.take hfd
  rw [← fds_setFd] at htake
  exact hi.fileStep (.setFd S p fd none)
    (htake.of_same ⟨fun _ => rfl, fun _ => rfl, fun _ => rfl, fun _ _ _ => rfl⟩ htake.count htake.idle)

theorem sysClose_next (hi : KInv M S g []) (ht : TieInv S) (hp : (S.proc p).state = .runnable)
    (fd : Fin NOFILE) :
    ∃ r S' g', sysClose M S p fd = .ok (r, S') ∧ Next M S g (.close p fd) S' g' := by
  unfold sysClose
  cases hfd : (S.proc p).ofile fd with
  | none => exact ⟨-1, S, g, rfl, .of_call ht hp hi (.of_file (.refl S p)) rfl⟩
  | some f =>
    obtain ⟨S', hrun, hi', hs⟩ := fileclose_hand (hi.take hfd) p
    refine ⟨0, S', g, ?_, .of_call ht hp hi' ((CallStep.of_file (.setFd S p fd none)).trans hs) rfl⟩
    simp only [hrun, ok_bind]

/-- `fdalloc` of a file in hand. -/
theorem fdalloc_ok {f : Fin NFILE} {fd : Fin NOFILE} (hi : KInv M S g (f :: hand))
    (hrun : fdalloc S p f = some (fd, S')) :
    (S.proc p).ofile fd = none ∧ S' = S.setFd p fd (some f) ∧ KInv M S' g hand
      ∧ CallStep S p S' := by
  unfold fdalloc at hrun
  split at hrun
  · cases hrun
  · rename_i fd' hfind
    obtain ⟨rfl, rfl⟩ : fd' = fd ∧ S.setFd p fd' (some f) = S' := by simpa using hrun
    have hnone : (S.proc p).ofile fd' = none := by grind
    exact ⟨hnone, rfl, hi.fileStep (.setFd S p fd' _) (hi.file.give hnone),
      .of_file (.setFd S p fd' _)⟩

/-- The two files of a pipe are closed again. -/
theorem sysPipe_undo {rf wf : Fin NFILE} (hi : KInv M S g [rf, wf]) (p : Fin np) :
    ∃ S', (do let S ← fileclose M S rf; let S ← fileclose M S wf; .ok (-1, S)
        : Except KPanic (Int × KSys np)) = .ok (-1, S') ∧ KInv M S' g [] ∧ CallStep S p S' := by
  obtain ⟨S₁, hrun₁, hi₁, hs₁⟩ := fileclose_hand hi p
  obtain ⟨S₂, hrun₂, hi₂, hs₂⟩ := fileclose_hand hi₁ p
  exact ⟨S₂, by simp only [hrun₁, hrun₂, ok_bind], hi₂, hs₁.trans hs₂⟩

theorem Ghost.setTree_self (g : Ghost np) (p : Fin np) : g.setTree p (g.tree p) = g := by
  rw [Ghost.setTree, Function.update_eq_self]

/-- `copyout` to the caller of a call on files. -/
theorem copyout_call {pt : Nat} (hi : KInv M S g hand) (hst : (S.proc p).state ≠ .unused)
    (hpt : (S.proc p).pagetable = some pt) (va : Nat) (src : List Byte) :
    KInv M (S.setMem (copyout S.kmem pt va src).2) g hand
      ∧ CallStep S p (S.setMem (copyout S.kmem pt va src).2) := by
  obtain ⟨pt', tf, hl⟩ := hi.lives hst
  obtain rfl : pt' = pt := Option.some.inj (hl.pagetable.symm.trans hpt)
  have hs := copyout_step hl hst (hi.slot_owned p) va src
  have hi' := hi.slotStep hs rfl
  rw [g.setTree_self] at hi'
  exact ⟨hi', fun _ _ => rfl, rfl, rfl, rfl, fun _ _ _ _ _ => ⟨rfl, rfl⟩⟩

/-- The descriptors of a new pipe are emptied, its files are in hand. -/
theorem KInv.take_two {rf wf : Fin NFILE} {fd0 fd1 : Fin NOFILE} (hi : KInv M S g [])
    (h0 : (S.proc p).ofile fd0 = some rf) (h1 : (S.proc p).ofile fd1 = some wf) (hne : fd1 ≠ fd0) :
    KInv M ((S.setFd p fd0 none).setFd p fd1 none) g [rf, wf]
      ∧ CallStep S p ((S.setFd p fd0 none).setFd p fd1 none) := by
  have h1' : ((S.setFd p fd0 none).proc p).ofile fd1 = some wf := by
    rw [setFd_ofile_ne _ hne, h1]
  have hi' := (hi.take h0).take h1'
  exact ⟨⟨hi'.total, hi'.slot, hi'.kern, hi'.file.perm (List.Perm.swap rf wf [])⟩,
    (CallStep.of_file (.setFd S p fd0 none)).trans (.of_file (.setFd _ p fd1 none))⟩

theorem sysPipe_next (hi : KInv M S g []) (ht : TieInv S) (hp : (S.proc p).state = .runnable)
    (fdarray : Nat) :
    ∃ r S' g', sysPipe M S p fdarray = .ok (r, S') ∧ Next M S g (.pipe p fdarray) S' g' := by
  have hst : (S.proc p).state ≠ .unused := by rw [hp]; nofun
  obtain ⟨r, S₁, hrun₁, hproc₁, hstep₁, hinv₁⟩ := pipealloc_ok (M := M) hi.file hi.pipes_owned p
  have hi₁ := hi.fileStep hstep₁ (by rw [fds_of_proc hproc₁]; exact hinv₁)
  have hs₁ := CallStep.of_file hstep₁
  -- whatever fails, both files are closed
  have hundo : ∀ {T : KSys np} {rf wf : Fin NFILE}, KInv M T g [rf, wf] → CallStep S p T →
      ∃ r S' g', (do let S ← fileclose M T rf; let S ← fileclose M S wf; .ok (-1, S)
        : Except KPanic (Int × KSys np)) = .ok (r, S') ∧ Next M S g (.pipe p fdarray) S' g' :=
    fun hT hsT => by
      obtain ⟨S', hrun, hi', hs⟩ := sysPipe_undo hT p
      exact ⟨-1, S', g, hrun, .of_call ht hp hi' (hsT.trans hs) rfl⟩
  unfold sysPipe
  rw [hrun₁, ok_bind]
  cases r with
  | none => exact ⟨-1, S₁, g, rfl, .of_call ht hp hi₁ hs₁ rfl⟩
  | some fs =>
    obtain ⟨rf, wf⟩ := fs
    simp only
    cases h0 : fdalloc S₁ p rf with
    | none => exact hundo hi₁ hs₁
    | some r =>
      obtain ⟨fd0, S₂⟩ := r
      obtain ⟨-, hS₂, hi₂, hs₂⟩ := fdalloc_ok hi₁ h0
      simp only
      have hofile₂ : (S₂.proc p).ofile fd0 = some rf := by rw [hS₂, setFd_ofile_self]
      cases h1 : fdalloc S₂ p wf with
      | none => exact hundo (hi₂.take hofile₂) ((hs₁.trans hs₂).trans (.of_file (.setFd S₂ p fd0 none)))
      | some r =>
        obtain ⟨fd1, S₃⟩ := r
        obtain ⟨hfree, hS₃, hi₃, hs₃⟩ := fdalloc_ok hi₂ h1
        have hne : fd1 ≠ fd0 := fun hc => by grind
        have hofile₃ : (S₃.proc p).ofile fd0 = some rf := by
          rw [hS₃, setFd_ofile_ne _ hne.symm, hofile₂]
        have hofile₃' : (S₃.proc p).ofile fd1 = some wf := by rw [hS₃, setFd_ofile_self]
        have hs := hs₁.trans (hs₂.trans hs₃)
        have hst₃ : (S₃.proc p).state ≠ .unused := by rw [hs.state]; exact hst
        obtain ⟨pt, tf, hl⟩ := hi₃.lives hst₃
        simp only [hl.pagetable]
        obtain ⟨hi₄, hs₄⟩ := copyout_call hi₃ hst₃ hl.pagetable fdarray (leBytes 4 fd0.val)
        split
        · rename_i k he
          rw [he] at hi₄ hs₄
          obtain ⟨hi₅, hs₅⟩ := hi₄.take_two hofile₃ hofile₃' hne
          exact hundo hi₅ (hs.trans (hs₄.trans hs₅))
        · rename_i k he
          rw [he] at hi₄ hs₄
          obtain ⟨hi₅, hs₅⟩ := copyout_call (S := S₃.setMem k) hi₄ hst₃ hl.pagetable
            ((fdarray + 4) % 2 ^ 64) (leBytes 4 fd1.val)
          split
          · rename_i k' he'
            rw [setMem_kmem, he'] at hi₅ hs₅
            obtain ⟨hi₆, hs₆⟩ := hi₅.take_two hofile₃ hofile₃' hne
            exact hundo hi₆ (hs.trans (hs₄.trans (hs₅.trans hs₆)))
          · rename_i k' he'
            rw [setMem_kmem, he'] at hi₅ hs₅
            exact ⟨0, S₃.setMem k', g, rfl, .of_call ht hp hi₅ (hs.trans (hs₄.trans hs₅)) rfl⟩

end Files

end Xv6.Vm
