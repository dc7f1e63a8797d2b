import Xv6.MemCalls

/-!
# `fork`, `exit` and `wait`

The calls that create and remove processes. `fork` makes a slot whose
pages are all its own or leaves everything as it was; `exit` closes the
files and hands the children on; `wait` gives back what a zombie owns.
-/

namespace Xv6.Vm

open Transfer Radix Tally List Ends
open ByteVec (Byte leBytes)

variable {np : Nat}

section Exit

variable {M : Machine} {S S' : KSys np} {g : Ghost np} {p q : Fin np} {hand : List (Fin NFILE)}

/-- What the ownership invariant reads of a slot. -/
structure SameOwner (x x' : Proc np) : Prop where
  trapframe : x'.trapframe = x.trapframe
  sz : x'.sz = x.sz
  pagetable : x'.pagetable = x.pagetable
  ofile : x'.ofile = x.ofile
  unused : x'.state = .unused ↔ x.state = .unused

theorem SameOwner.refl (x : Proc np) : SameOwner x x := ⟨rfl, rfl, rfl, rfl, .rfl⟩

theorem KInv.congr (h : KInv M S g hand) (hk : S'.kmem.toStore = S.kmem.toStore)
    (hf : S'.file = S.file) (hpt : S'.kpgtbl = S.kpgtbl)
    (hproc : ∀ q, SameOwner (S.proc q) (S'.proc q)) : KInv M S' g hand := by
  have hpages : pipePages S' = pipePages S := pipePages_congr (fun f => by rw [hf]) fun f _ => by rw [hf]
  have hslots : ∑ q, slotPages (S'.proc q) (g.tree q) = ∑ q, slotPages (S.proc q) (g.tree q) :=
    Finset.sum_congr rfl fun q _ => slotPages_congr (hproc q).trapframe (hproc q).sz
  refine ⟨?_, fun q => ?_, h.kern.frame hpt fun y _ => by rw [hk], ?_⟩
  · rw [inUse, hslots, hpages, hk]
    exact h.total
  · rw [hk]
    obtain ⟨htf, hsz, hpt, -, hu⟩ := hproc q
    rcases h.slot q with hv | ⟨hne, pt, tf, hl⟩
    · exact .inl ⟨hu.mpr hv.state, hpt.trans hv.pagetable, htf.trans hv.trapframe, hsz.trans hv.sz,
        hv.tree⟩
    · exact .inr ⟨fun hc => hne (hu.mp hc), pt, tf, hl.congr hpt htf hsz⟩
  · rw [show fds S' = fds S from funext fun i => by rw [fds, (hproc i.1).ofile]; rfl]
    exact h.file.of_same ⟨fun f => by rw [hf], fun f => by rw [hf], fun f => by rw [hf], fun f _ b => by
      rw [KSys.pipeWord, hk]; rfl⟩ (fun f => by rw [hf]; exact h.file.count f)
      fun f hr => h.file.idle f (by rwa [hf] at hr)

/-- The loop of `exit` over descriptors. -/
theorem closeFiles_ok {l : List (Fin NOFILE)} : ∀ {S : KSys np}, KInv M S g [] →
    ∃ S', closeFiles M p l S = .ok S' ∧ KInv M S' g [] ∧ FileStep S p S'
      ∧ ∀ fd, fd ∈ l ∨ (S.proc p).ofile fd = none → (S'.proc p).ofile fd = none := by
  induction l with
  | nil =>
    intro S hi
    exact ⟨S, rfl, hi, .refl S p, fun fd h => h.resolve_left not_mem_nil⟩
  | cons fd l ih =>
    intro S hi
    unfold closeFiles
    cases hfd : (S.proc p).ofile fd with
    | none =>
      grind
    | some f =>
      obtain ⟨S₁, hrun₁, hinv₁, hs₁, hproc₁⟩ := fileclose_fd (M := M) hi.file hfd hi.pipes_owned
      obtain ⟨S', hrun, hi', hs, hnone⟩ := ih (hi.fileStep hs₁ hinv₁)
      refine ⟨S', ?_, hi', hs₁.trans hs, fun fd' h => hnone fd' ?_⟩
      · simp only [hrun₁, ok_bind]
        exact hrun
      · by_cases hfd' : fd' = fd
        · exact .inr (by rw [hfd', setFd_ofile_self])
        · simp_all [setFd_ofile_ne _ hfd', hproc₁, h]

/-- A slot after `reparent`. -/
theorem reparent_proc (S : KSys np) (p q : Fin np) :
    (reparent S p).proc q = { S.proc q with
      parent := if (S.proc q).parent = some p then S.initproc else (S.proc q).parent } := by
  show (if (S.proc q).parent = some p then _ else _) = _
  split
  · rfl
  · rfl

theorem exit_next (hi : KInv M S g []) (ht : TieInv S) (hp : (S.proc p).state = .runnable)
    (hinit : S.initproc ≠ some p) (status : Nat) :
    ∃ S' g', exit M S p status = .ok S' ∧ Next M S g (.exit p status) S' g' := by
  obtain ⟨S₁, hrun₁, hi₁, hs₁, hnone₁⟩ := closeFiles_ok (M := M) (p := p) (l := finRange NOFILE) hi
  have hinit₁ : S₁.initproc = S.initproc := hs₁.initproc
  -- the state that is left
  obtain ⟨S', hrun', hmem', hfile', hpt', hini', hself', hother'⟩ : ∃ S', exit M S p status = .ok S'
      ∧ S'.kmem = S₁.kmem ∧ S'.file = S₁.file ∧ S'.kpgtbl = S₁.kpgtbl ∧ S'.initproc = S₁.initproc
      ∧ S'.proc p = { S₁.proc p with
          cwd := none, xstate := status, state := .zombie,
          parent := if (S₁.proc p).parent = some p then S₁.initproc else (S₁.proc p).parent }
      ∧ ∀ q ≠ p, S'.proc q = { S₁.proc q with
          parent := if (S₁.proc q).parent = some p then S₁.initproc else (S₁.proc q).parent } := by
    unfold exit
    rw [if_neg hinit, hrun₁, ok_bind]
    simp only
    cases (S₁.proc p).cwd with
    | none =>
      refine ⟨_, rfl, rfl, rfl, rfl, rfl, ?_, fun q hq => ?_⟩
      · rw [setProc_proc_self, reparent_proc, setProc_proc_self]
        rfl
      · rw [setProc_proc_ne _ hq, reparent_proc, setProc_proc_ne _ hq]
        rfl
    | some ip =>
      refine ⟨_, rfl, rfl, rfl, rfl, rfl, ?_, fun q hq => ?_⟩
      · rw [setProc_proc_self, reparent_proc, setProc_proc_self]
        rfl
      · rw [setProc_proc_ne _ hq, reparent_proc, setProc_proc_ne _ hq]
        rfl
  have hstate₁ : (S₁.proc p).state = .runnable := by rw [hs₁.self]; exact hp
  have hstate : ∀ q ≠ p, (S'.proc q).state = (S.proc q).state := fun q hq => by
    rw [hother' q hq, hs₁.others q hq]
  -- nobody has the exiting process as parent any more
  have hparent : ∀ q r, (S'.proc q).parent = some r → r ≠ p ∧ (S.proc r).state = .runnable
      ∧ (q ≠ p → (S.proc q).state ≠ .unused) := fun q r hr => by
    have hpar₁ : (S₁.proc q).parent = (S.proc q).parent := by
      by_cases hq : q = p
      · rw [hq, hs₁.self]
      · rw [hs₁.others q hq]
    have hr' : (if (S.proc q).parent = some p then S.initproc else (S.proc q).parent) = some r := by
      grind
    split at hr'
    · rename_i hpp
      exact ⟨fun hc => hinit (hc ▸ hr'), ht.init r hr', fun _ => (ht.parent q p hpp).1⟩
    · rename_i hpp
      exact ⟨fun hc => hpp (hc ▸ hr'), (ht.parent q r hr').2, fun _ => (ht.parent q r hr').1⟩
  refine ⟨S', g, hrun', hi₁.congr (by rw [hmem']) hfile' hpt' fun q => ?_, ⟨fun q r hr => ?_, fun r hr => ?_,
    fun q hq fd => ?_⟩, fun r hr _ _ => ?_, fun r hr => ?_, rfl⟩
  · by_cases hq : q = p
    · rw [hq, hself']
      exact ⟨rfl, rfl, rfl, rfl, iff_of_false nofun (by rw [hstate₁]; nofun)⟩
    · rw [hother' q hq]
      exact ⟨rfl, rfl, rfl, rfl, .rfl⟩
  · grind
  · rw [hini', hinit₁] at hr
    have hrp : r ≠ p := fun hc => hinit (hc ▸ hr)
    rw [hstate r hrp]
    exact ht.init r hr
  · by_cases hqp : q = p
    · simp_all
    · rw [hstate q hqp] at hq
      rw [hother' q hqp, hs₁.others q hqp]
      exact ht.files q hq fd
  · have hrp : r ≠ p := fun hc => hr (hc ▸ rfl)
    have hx := hother' r hrp
    rw [hs₁.others r hrp] at hx
    refine ⟨by rw [hx], by rw [hx], by rw [hx], by rw [hx], fun hpar => ?_, rfl, fun fd f hf => ?_⟩
    · have hne : (S.proc r).parent ≠ some p := by
        rcases hpar with hpar | hpar
        · rw [hpar]
          nofun
        · exact hpar
      rw [hx]
      exact if_neg hne
    · rw [hfile']
      exact hs₁.kept r hrp fd f hf
  · by_cases hrp : r = p
    · have hz := hr.2
      rw [hrp, hself'] at hz
      cases hz
    · exact absurd ((hstate r hrp).symm.trans hr.2) hr.1

end Exit

/-! ## `wait` -/

section Wait

variable {M : Machine} {S S' : KSys np} {g : Ghost np} {p q : Fin np}

/-- A zombie is taken out of its slot, after the caller's memory may have
been written. -/
theorem freeproc_next {S₁ : KSys np} (a : KAct np) (hi : KInv M S₁ g []) (ht : TieInv S)
    (hproc : S₁.proc = S.proc) (hfile : S₁.file = S.file) (hinit : S₁.initproc = S.initproc)
    (hz : (S.proc q).state = .zombie) (hpar : (S.proc q).parent = a.caller) :
    ∃ S' g', freeproc M S₁ q = .ok S' ∧ Next M S g a S' g' := by
  have hst : (S₁.proc q).state ≠ .unused := by rw [hproc, hz]; nofun
  obtain ⟨pt, tf, hl⟩ := hi.lives hst
  obtain ⟨k, hrun, hm⟩ := freeproc_lives hl (hi.slot_owned q)
  have hs := SlotStep.of_cleared (M := M) hm
  have hother : ∀ r ≠ q, ((S₁.setMem k).setProc q (S₁.proc q).cleared).proc r = S.proc r :=
    fun r hr => by rw [setProc_proc_ne _ hr, setMem_proc, hproc]
  have hself : ((S₁.setMem k).setProc q (S₁.proc q).cleared).proc q = (S₁.proc q).cleared :=
    setProc_proc_self ..
  have hrun' : ∀ r, (S.proc r).state = .runnable → r ≠ q := fun r hr hc => by
    rw [hc, hz] at hr
    cases hr
  refine ⟨_, g.setTree q .nil, hrun, hi.slotStep hs (by rw [hself]; rfl), ⟨fun r s hr => ?_, fun r hr => ?_,
    fun r hr fd => ?_⟩, fun r _ hr hnr => ?_, fun r hr => ?_, rfl⟩
  · by_cases hrq : r = q
    · rw [hrq, hself] at hr
      cases hr
    · rw [hother r hrq] at hr ⊢
      obtain ⟨h1, h2⟩ := ht.parent r s hr
      grind
  · have hr' : S.initproc = some r := hinit ▸ hr
    have h := ht.init r hr'
    rw [hother r (hrun' r h), h]
  · by_cases hrq : r = q
    · rw [hrq, hself]
      show (S₁.proc q).ofile fd = none
      rw [hproc]
      exact ht.files q (by rw [hz]; nofun) fd
    · rw [hother r hrq] at hr ⊢
      exact ht.files r hr fd
  · have hrq : r ≠ q := fun hc => hnr ⟨hr, by rw [hc, hself]; rfl⟩
    have hx := hother r hrq
    exact ⟨by rw [hx], by rw [hx], by rw [hx], by rw [hx], fun _ => by rw [hx],
      Function.update_of_ne hrq .., fun fd f _ => ⟨by rw [← hfile]; rfl, by rw [← hfile]; rfl⟩⟩
  · have honly : ∀ r, Reaped S ((S₁.setMem k).setProc q (S₁.proc q).cleared) r → r = q := fun r hr => by
      by_contra hrq
      exact hr.1 ((hother r hrq).symm ▸ hr.2)
    grind

theorem wait_next (hi : KInv M S g []) (ht : TieInv S) (hp : (S.proc p).state = .runnable)
    (addr : Nat) :
    ∃ o, wait M S p addr = .ok o ∧ ∀ r S', o = some (r, S') → ∃ g', Next M S g (.wait p addr) S' g' := by
  have hst : (S.proc p).state ≠ .unused := by rw [hp]; nofun
  obtain ⟨pt, tf, hl⟩ := hi.lives hst
  have hstay : ∃ g', Next M S g (.wait p addr) S g' :=
    ⟨_, .of_slot (p := p) hi ht ⟨fun _ _ => rfl, rfl, rfl, rfl, hi.slot p, .refl ..⟩ (.refl _)
      (.inr ⟨rfl, rfl⟩)⟩
  unfold wait
  split
  · rename_i q hfind
    have hq : (S.proc q).parent = some p ∧ (S.proc q).state = .zombie := by grind
    simp only [hl.pagetable]
    -- the memory after the status was copied out, if it was
    have hcopy : ∀ b k, (if addr = 0 then (true, S.kmem)
        else copyout S.kmem pt addr (leBytes 4 (S.proc q).xstate)) = (b, k) →
        SlotStep M S p (g.tree p) (S.setMem k) (g.tree p) := fun b k he => by
      split at he
      · obtain rfl : S.kmem = k := congrArg Prod.snd he
        exact ⟨fun _ _ => rfl, rfl, rfl, rfl, hi.slot p, .refl ..⟩
      · have h := copyout_step hl hst (hi.slot_owned p) addr (leBytes 4 (S.proc q).xstate)
        rwa [he] at h
    split
    · rename_i k he
      refine ⟨_, rfl, fun r S' hr => ?_⟩
      obtain ⟨rfl, rfl⟩ : -1 = r ∧ S.setMem k = S' := by simpa using hr
      exact ⟨_, .of_slot hi ht (hcopy _ k he) (.refl _) (.inr ⟨rfl, rfl⟩)⟩
    · rename_i k he
      have hi₁ := hi.slotStep (hcopy _ k he) rfl
      rw [g.setTree_self] at hi₁
      obtain ⟨S', g', hrun, hnext⟩ := freeproc_next (S := S) (.wait p addr) hi₁ ht rfl rfl rfl hq.2 hq.1
      refine ⟨some ((S.proc q).pid, S'), ?_, fun r S'' hr => ?_⟩
      · simp only [hrun, ok_bind]
      · grind
  · split
    · grind
    · exact ⟨none, rfl, nofun⟩

end Wait

/-! ## `fork` -/

section Fork

variable {M : Machine} {S S' : KSys np} {g : Ghost np} {p q : Fin np}

/-- A descriptor more of an open file. -/
theorem KInv.dup {f : Fin NFILE} {fd fd' : Fin NOFILE} (hi : KInv M S g [])
    (hfd : (S.proc p).ofile fd = some f) (hnone : (S.proc q).ofile fd' = none) :
    ∃ S₁, filedup S f = .ok S₁ ∧ S₁ = S.setFile f { S.file f with ref := (S.file f).ref + 1 }
      ∧ KInv M (S₁.setFd q fd' (some f)) g [] ∧ FileStep S q (S₁.setFd q fd' (some f)) := by
  have hpos : 0 < tally (fds S) f := tally_pos.mpr ⟨(p, fd), hfd⟩
  have hcount := hi.file.count f
  let S₁ := S.setFile f { S.file f with ref := (S.file f).ref + 1 }
  have hinv₁ : FileInv S₁ (fds S₁) [f] := by
    refine hi.file.of_same (.setRef S f _) (fun e => ?_) fun e he => ?_
    · have he := hi.file.count e
      by_cases hef : e = f
      · subst hef
        rw [setFile_self, count_cons_self]
        show (S.file e).ref + 1 = tally (fds S) e + _
        rw [count_nil] at he ⊢
        omega
      · rw [setFile_ne _ hef, count_cons_of_ne (Ne.symm hef)]
        exact he
    · by_cases hef : e = f
      · rw [hef, setFile_self] at he
        cases he
      · rw [setFile_ne _ hef] at he
        exact hi.file.idle e he
  have hs₁ : FileStep S q S₁ := .setRef S q f _
  have hi₁ := hi.fileStep hs₁ hinv₁
  exact ⟨S₁, if_neg (by omega), rfl,
    hi₁.fileStep (.setFd S₁ q fd' (some f)) (hi₁.file.give hnone), hs₁.trans (.setFd S₁ q fd' (some f))⟩

/-- The loop of `fork` over descriptors, for a child without open
files. -/
theorem dupFiles_ok {l : List (Fin NOFILE)} (hl : l.Nodup) : ∀ {S : KSys np},
    KInv M S g [] → (∀ fd ∈ l, (S.proc q).ofile fd = none) →
    ∃ S', dupFiles p q l S = .ok S' ∧ KInv M S' g [] ∧ FileStep S q S' := by
  induction l with
  | nil =>
    intro S hi _
    exact ⟨S, rfl, hi, .refl S q⟩
  | cons fd l ih =>
    intro S hi hnone
    obtain ⟨hfresh, hl⟩ := nodup_cons.mp hl
    unfold dupFiles
    cases hfd : (S.proc p).ofile fd with
    | none => exact ih hl hi fun fd' h => hnone fd' (mem_cons_of_mem fd h)
    | some f =>
      obtain ⟨S₁, hrun₁, hS₁, hi₂, hs₂⟩ := hi.dup hfd (hnone fd (mem_cons_self ..))
      obtain ⟨S', hrun', hi', hs'⟩ := ih hl hi₂ fun fd' h => by
        have hne : fd' ≠ fd := fun hc => hfresh (hc ▸ h)
        rw [setFd_ofile_ne _ hne, hS₁]
        exact hnone fd' (mem_cons_of_mem fd h)
      refine ⟨S', ?_, hi', hs₂.trans hs'⟩
      simp only [hrun₁, ok_bind]
      exact hrun'

/-- A slot that was vacant is vacant again, or holds a child. -/
theorem Next.of_fresh {a : KAct np} {g' : Ghost np} (ht : TieInv S) (hi' : KInv M S' g' [])
    (hu : (S.proc q).state = .unused) (hothers : ∀ r ≠ q, S'.proc r = S.proc r)
    (htree : ∀ r ≠ q, g'.tree r = g.tree r) (hkern : kernPages g' = kernPages g)
    (hinit : S'.initproc = S.initproc)
    (hkept : ∀ r ≠ q, ∀ fd f, (S.proc r).ofile fd = some f →
      (S'.file f).type = (S.file f).type ∧ (S'.file f).pipe = (S.file f).pipe)
    (hpar : ∀ r, (S'.proc q).parent = some r →
      (S'.proc q).state ≠ .unused ∧ (S.proc r).state = .runnable)
    (hfiles : (S'.proc q).state ≠ .runnable → ∀ fd, (S'.proc q).ofile fd = none) :
    Next M S g a S' g' := by
  have hrun : ∀ r, (S.proc r).state ≠ .unused → r ≠ q := fun r hr hc => hr (hc ▸ hu)
  have hrun' : ∀ r, (S.proc r).state = .runnable → (S'.proc r).state = .runnable := fun r hr => by
    grind
  refine ⟨hi', ⟨fun r s hs => ?_, fun r hr => ?_, fun r hr fd => ?_⟩, fun r _ hr _ => ?_, fun r hr => ?_,
    hkern⟩
  · by_cases hrq : r = q
    · grind
    · rw [hothers r hrq] at hs ⊢
      obtain ⟨h1, h2⟩ := ht.parent r s hs
      exact ⟨h1, hrun' s h2⟩
  · rw [hinit] at hr
    exact hrun' r (ht.init r hr)
  · by_cases hrq : r = q
    · rw [hrq] at hr ⊢
      exact hfiles hr fd
    · rw [hothers r hrq] at hr ⊢
      exact ht.files r hr fd
  · have hrq := hrun r hr
    have hx := hothers r hrq
    exact ⟨by rw [hx], by rw [hx], by rw [hx], by rw [hx], fun _ => by rw [hx], htree r hrq,
      fun fd f hf => hkept r hrq fd f hf⟩
  · exact absurd ((hothers r (hrun r hr.1)) ▸ hr.2) hr.1

/-- Nothing but the vacant slot `q`, and the memory, was changed. -/
structure Claimed (S : KSys np) (g : Ghost np) (q : Fin np) (S₁ : KSys np) (g₁ : Ghost np) : Prop where
  unused : (S.proc q).state = .unused
  others : ∀ r ≠ q, S₁.proc r = S.proc r
  tree : ∀ r ≠ q, g₁.tree r = g.tree r
  kern : kernPages g₁ = kernPages g
  initproc : S₁.initproc = S.initproc
  file : S₁.file = S.file
  ofile : (S₁.proc q).ofile = (S.proc q).ofile

theorem Claimed.ofile_none {S₁ : KSys np} {g₁ : Ghost np} (h : Claimed S g q S₁ g₁) (ht : TieInv S)
    (fd : Fin NOFILE) : (S₁.proc q).ofile fd = none := by
  rw [h.ofile]
  exact ht.files q (by rw [h.unused]; nofun) fd

theorem Claimed.setMem {S₁ : KSys np} {g₁ : Ghost np} (h : Claimed S g q S₁ g₁) (k : Kmem)
    (t : Table) : Claimed S g q (S₁.setMem k) (g₁.setTree q t) :=
  ⟨h.unused, h.others, fun r hr => (Function.update_of_ne hr ..).trans (h.tree r hr), h.kern,
    h.initproc, h.file, h.ofile⟩

/-- A child whose memory could not be had is given up. -/
theorem Next.of_cleared {a : KAct np} {S₁ : KSys np} {g₁ : Ghost np} {pt tf : Nat} (ht : TieInv S)
    (hc : Claimed S g q S₁ g₁) (hi₁ : KInv M S₁ g₁ [])
    (hl : Lives M S₁.kmem.cell (S₁.proc q) (g₁.tree q) pt tf) :
    ∃ S' g', freeproc M S₁ q = .ok S' ∧ Next M S g a S' g' := by
  obtain ⟨k, hrun, hm⟩ := freeproc_lives hl (hi₁.slot_owned q)
  have hs := SlotStep.of_cleared (M := M) hm
  have hself : ((S₁.setMem k).setProc q (S₁.proc q).cleared).proc q = (S₁.proc q).cleared :=
    setProc_proc_self ..
  refine ⟨_, g₁.setTree q .nil, hrun, .of_fresh ht (hi₁.slotStep hs (by rw [hself]; rfl)) hc.unused
    (fun r hr => ?_) (fun r hr => (Function.update_of_ne hr ..).trans (hc.tree r hr)) hc.kern hc.initproc
    (fun r _ fd f _ => ⟨by rw [← hc.file]; rfl, by rw [← hc.file]; rfl⟩) (fun r hr => ?_) fun _ fd => ?_⟩
  · rw [setProc_proc_ne _ hr, setMem_proc, hc.others r hr]
  · rw [hself] at hr
    cases hr
  · rw [hself]
    exact hc.ofile_none ht fd

/-- The registers of the child. -/
def childFrame (k : Kmem) (tf qtf : Nat) : Kmem :=
  let k := k.setPage qtf ((k.cell qtf).patch 0 ((k.cell tf).slice 0 trapframeSize))
  k.setPage qtf ((k.cell qtf).setWord 8 a0Off 0)

theorem forkFinish_eq (S : KSys np) (p q : Fin np) (tf qtf : Nat) : forkFinish S p q tf qtf
    = (dupFiles p q (finRange NOFILE) ((S.setProc q { S.proc q with
        sz := (S.proc p).sz, traceMask := (S.proc p).traceMask }).setMem (childFrame S.kmem tf qtf))
      >>= fun S => .ok (((S.proc q).pid : Int), forkRunnable S p q)) := rfl

theorem childFrame_stores (k : Kmem) (tf qtf : Nat) : Stores k {qtf} (childFrame k tf qtf) :=
  have hself : qtf ∈ ({qtf} : Multiset Nat) := Multiset.mem_singleton_self qtf
  (Stores.setPage hself _).trans (.setPage hself _)

/-- The slot's trapframe is written. -/
theorem Stores.trapframe {k : Kmem} {t : Table} {pt tf : Nat}
    (h : Lives M S.kmem.cell (S.proc q) t pt tf) (hst : (S.proc q).state ≠ .unused)
    (hown : Custody M.IsPage S.kmem.toStore (slotPages (S.proc q) t)) (hs : Stores S.kmem {tf} k) :
    SlotStep M S q t (S.setMem k) t := by
  rw [h.pages, add_comm] at hown
  refine .of_mem (.inr ⟨hst, pt, tf, h.pagetable, h.trapframe, h.rep.frame fun y hy => ?_, h.name,
    h.space⟩) ?_
  · exact hown.keeps hs.moves (Multiset.mem_add.mpr (.inl hy))
  · rw [h.pages]
    exact hs.moves.add_left _

theorem forkRunnable_spec (S : KSys np) (p q : Fin np) :
    (forkRunnable S p q).kmem = S.kmem ∧ (forkRunnable S p q).file = S.file
      ∧ (forkRunnable S p q).initproc = S.initproc ∧ (forkRunnable S p q).kpgtbl = S.kpgtbl
      ∧ (forkRunnable S p q).proc q = { S.proc q with
        cwd := (S.proc p).cwd, name := (S.proc p).name, parent := some p, state := .runnable }
      ∧ ∀ r ≠ q, (forkRunnable S p q).proc r = S.proc r := by
  unfold forkRunnable
  cases hcwd : (S.proc p).cwd with
  | none =>
    simp only [hcwd]
    exact ⟨rfl, rfl, rfl, rfl, setProc_proc_self .., fun r hr => setProc_proc_ne _ hr⟩
  | some ip =>
    simp only [hcwd]
    exact ⟨rfl, rfl, rfl, rfl, setProc_proc_self .., fun r hr => setProc_proc_ne _ hr⟩

/-- The part of `fork` after the memory is copied. -/
theorem forkFinish_next {S₁ : KSys np} {g₁ : Ghost np} {k₂ : Kmem} {t₂ : Table} {pt qtf : Nat}
    (ht : TieInv S) (hp : (S.proc p).state = .runnable) (hc : Claimed S g q S₁ g₁)
    (hi₁ : KInv M S₁ g₁ []) (hl₁ : Lives M S₁.kmem.cell (S₁.proc q) (g₁.tree q) pt qtf)
    (hst₁ : (S₁.proc q).state ≠ .unused)
    (hre : Reshapes M qtf S₁.kmem (g₁.tree q) (npg (S₁.proc q).sz) k₂ t₂ (npg (S₁.proc p).sz))
    (tf : Nat) :
    ∃ r S' g', forkFinish (S₁.setMem k₂) p q tf qtf = .ok (r, S') ∧ Next M S g (.fork p) S' g' := by
  have hpq : p ≠ q := fun h => by
    rw [h, hc.unused] at hp
    cases hp
  -- the size is recorded
  let x₂ : Proc np := { S₁.proc q with
    sz := (S₁.proc p).sz, traceMask := (S₁.proc p).traceMask }
  let S₂ := (S₁.setMem k₂).setProc q x₂
  have hx₂ : S₂.proc q = x₂ := setProc_proc_self ..
  have hl₂ : Lives M k₂.cell x₂ t₂ pt qtf :=
    ⟨hl₁.pagetable, hl₁.trapframe, hre.rep, hre.name.trans hl₁.name, hre.space⟩
  have hs₂ : SlotStep M S₁ q (g₁.tree q) S₂ t₂ := hl₁.step hl₂ hst₁ (hre.moves.add _)
  have hi₂ := hi₁.slotStep hs₂ (by rw [hx₂])
  have htree₂ : (g₁.setTree q t₂).tree q = t₂ := Function.update_self ..
  -- the registers
  have hst₃ := childFrame_stores S₂.kmem tf qtf
  have hl₂' : Lives M S₂.kmem.cell (S₂.proc q) ((g₁.setTree q t₂).tree q) pt qtf := by
    rw [hx₂, htree₂]
    exact hl₂
  have hs₃ := Stores.trapframe hl₂' (by rw [hx₂]; exact hst₁) (hi₂.slot_owned q) hst₃
  have hi₃ := hi₂.slotStep hs₃ rfl
  rw [Ghost.setTree_self] at hi₃
  -- the open files
  obtain ⟨S₄, hrun₄, hi₄, hs₄⟩ := dupFiles_ok (p := p) (nodup_finRange NOFILE) hi₃ fun fd _ => by
    rw [setMem_proc, hx₂]
    exact hc.ofile_none ht fd
  have hothers₄ : ∀ r ≠ q, S₄.proc r = S.proc r := fun r hr => by
    rw [hs₄.others r hr, setMem_proc, setProc_proc_ne _ hr, setMem_proc, hc.others r hr]
  have hself₄ : S₄.proc q = { x₂ with ofile := (S₄.proc q).ofile } := by
    have h := hs₄.self
    rwa [setMem_proc, hx₂] at h
  -- the child becomes runnable
  obtain ⟨h1, h2, h3, h4, hx', hother'⟩ := forkRunnable_spec S₄ p q
  refine ⟨((S₄.proc q).pid : Int), forkRunnable S₄ p q, g₁.setTree q t₂, ?_, .of_fresh ht (hi₄.congr (congrArg _ h1) h2 h4
    fun r => ?_) hc.unused (fun r hr => ?_) (fun r hr => (g₁.setTree_tree_ne t₂ hr).trans (hc.tree r hr))
    hc.kern (h3.trans (hs₄.initproc.trans hc.initproc)) (fun r hr fd f hf => ?_) (fun r hr => ?_)
    fun hr => ?_⟩
  · rw [forkFinish_eq]
    exact congrArg (· >>= _) hrun₄
  · by_cases hrq : r = q
    · rw [hrq, hx']
      refine ⟨rfl, rfl, rfl, rfl, iff_of_false nofun ?_⟩
      rw [hself₄]
      exact hst₁
    · rw [hother' r hrq]
      exact .refl _
  · rw [hother' r hr, hothers₄ r hr]
  · have hkept := hs₄.kept r hr fd f (by
      rw [setMem_proc, setProc_proc_ne _ hr, setMem_proc, hc.others r hr]
      exact hf)
    have hf₃ : (S₂.setMem (childFrame S₂.kmem tf qtf)).file = S.file := hc.file
    grind
  · grind
  · rw [hx'] at hr
    exact absurd rfl hr

/-- `fork` has a slot with an empty address space, and the parent's is
what it was. -/
structure Forking (M : Machine) (S : KSys np) (g : Ghost np) (p q : Fin np) (S₁ : KSys np)
    (t : Table) (pt qtf old tf : Nat) : Prop where
  claimed : Claimed S g q S₁ (g.setTree q t)
  inv : KInv M S₁ (g.setTree q t) []
  child : Lives M S₁.kmem.cell (S₁.proc q) t pt qtf
  self : S₁.proc q = (S.proc q).allocated S.nextpid pt qtf
  size : (S₁.proc q).sz = 0
  parent : Lives M S₁.kmem.cell (S₁.proc p) (g.tree p) old tf
  moves : Moves S.kmem.toStore 0 S₁.kmem.toStore (slotPages (S₁.proc q) t)

/-- The three ways `fork` goes. -/
theorem fork_cases (hi : KInv M S g []) (hst : (S.proc p).state ≠ .unused) :
    (∃ S', fork M S p = .ok (-1, S') ∧ allocproc M S = .ok (none, S') ∧ Allocated M S none S')
    ∨ ∃ q S₁ t pt qtf old tf k₂ t₂, Forking M S g p q S₁ t pt qtf old tf
      ∧ allocproc M S = .ok (some q, S₁)
      ∧ (fork M S p = (freeproc M (S₁.setMem k₂) q >>= fun S => .ok (-1, S))
          ∧ Reshapes M qtf S₁.kmem t 0 k₂ t₂ 0
        ∨ fork M S p = forkFinish (S₁.setMem k₂) p q tf qtf
          ∧ Reshapes M qtf S₁.kmem t 0 k₂ t₂ (npg (S.proc p).sz)
          ∧ Extends M S₁.kmem t k₂ t₂ 0 (npg (S.proc p).sz) (oldFlags (g.tree p))
            fun key => S₁.kmem.cell (PTE2PA ((g.tree p).get key))) := by
  have hvac : ∀ q, (S.proc q).state = .unused → Vacant (S.proc q) .nil := fun q hq => by
    have h := hi.vacant hq
    exact ⟨h.state, h.pagetable, h.trapframe, h.sz, rfl⟩
  obtain ⟨r, S₁, hrun₁, hres⟩ := allocproc_ok (hi.owned.mono (Multiset.zero_le _)) hvac
  cases r with
  | none =>
    refine .inl ⟨S₁, ?_, hrun₁, hres⟩
    rw [fork, hrun₁, ok_bind]
  | some q =>
    obtain ⟨hu, t, pt, qtf, hs₁, hl₁, hself₁⟩ := hres
    have hnil : g.tree q = .nil := (hi.vacant hu).tree
    have hpq : p ≠ q := fun hc => hst (hc ▸ hu)
    have hx : S₁.proc p = S.proc p := hs₁.others p hpq
    have hi₁ := hi.slotStep (hnil.symm ▸ hs₁) (by rw [hself₁]; rfl)
    have hsz₁ : (S₁.proc q).sz = 0 := by
      rw [hself₁]
      exact (hi.vacant hu).sz
    obtain ⟨old, tf, hlp⟩ := hi₁.lives (p := p) (by rw [hx]; exact hst)
    rw [g.setTree_tree_ne t hpq] at hlp
    have hfork : Forking M S g p q S₁ t pt qtf old tf :=
      ⟨⟨hu, hs₁.others, fun r hr => g.setTree_tree_ne t hr, rfl, hs₁.initproc, hs₁.file,
        by rw [hself₁]; rfl⟩, hi₁, hl₁, hself₁, hsz₁, hlp,
        hs₁.moves.of_eq (hvac q hu).pages rfl⟩
    have howns := hi₁.slots_owned (p := q) (q := p) hpq
    rw [g.setTree_tree_self, g.setTree_tree_ne t hpq] at howns
    have hsp : spacePages t 0 + spacePages (g.tree p) (npg (S₁.proc p).sz)
        ≤ slotPages (S₁.proc q) t + slotPages (S₁.proc p) (g.tree p) := by
      rw [hl₁.pages, hlp.pages, hsz₁]
      exact add_le_add (Multiset.le_add_right ..) (Multiset.le_add_right ..)
    have hspace : Space M t qtf 0 := by
      have h := hl₁.space
      rwa [hsz₁] at h
    obtain ⟨done, k₂, t₂, hrun₂, hsucc, hfail⟩ := uvmcopy_reshapes (S₁.proc p).sz hl₁.rep hlp.rep
      (howns.mono hsp) hl₁.name hlp.name hspace hlp.space.user
    refine .inr ⟨q, S₁, t, pt, qtf, old, tf, k₂, t₂, hfork, hrun₁, ?_⟩
    rw [fork, hrun₁, ok_bind]
    simp only [hlp.pagetable, hlp.trapframe, hl₁.pagetable, hl₁.trapframe, hrun₂, ok_bind]
    cases done with
    | false => exact .inl ⟨rfl, hfail rfl⟩
    | true =>
      grind

theorem fork_next (hi : KInv M S g []) (ht : TieInv S) (hp : (S.proc p).state = .runnable) :
    ∃ r S' g', fork M S p = .ok (r, S') ∧ Next M S g (.fork p) S' g' := by
  have hst : (S.proc p).state ≠ .unused := by rw [hp]; nofun
  rcases fork_cases hi hst with ⟨S', hrun, -, hres⟩ | ⟨q, S₁, t, pt, qtf, old, tf, k₂, t₂, hf, -, hres⟩
  · rcases hres with rfl | ⟨q, hu, hs, hself⟩
    · exact ⟨-1, S', _, hrun, .of_slot (p := p) hi ht
        ⟨fun _ _ => rfl, rfl, rfl, rfl, hi.slot p, .refl ..⟩ (.refl _) (.inr ⟨rfl, rfl⟩)⟩
    · have hnil : g.tree q = .nil := (hi.vacant hu).tree
      have hi' := hi.slotStep (hnil.symm ▸ hs) (by rw [hself]; rfl)
      refine ⟨-1, S', _, hrun, .of_fresh ht hi' hu hs.others (fun r hr => Function.update_of_ne hr ..)
        rfl hs.initproc (fun r _ fd f _ => ⟨by rw [hs.file], by rw [hs.file]⟩) (fun r hr => ?_)
        fun _ fd => ?_⟩
      · rw [hself] at hr
        cases hr
      · rw [hself]
        exact ht.files q (by rw [hu]; nofun) fd
  have hst₁ : (S₁.proc q).state ≠ .unused := by rw [hf.self]; nofun
  rcases hres with ⟨hrun, hre⟩ | ⟨hrun, hre, -⟩
  · -- no copy: the child is given up
    rw [← show npg (S₁.proc q).sz = 0 by rw [hf.size]; rfl] at hre
    have hs₂ := hf.child.reshape_self hst₁ hre
    have hi₂ := hf.inv.slotStep
      (show SlotStep M S₁ q ((g.setTree q t).tree q) (S₁.setMem k₂) t₂ from
        (g.setTree_tree_self q t).symm ▸ hs₂) rfl
    have hl₂ : Lives M k₂.cell (S₁.proc q) t₂ pt qtf :=
      ⟨hf.child.pagetable, hf.child.trapframe, hre.rep, hre.name.trans hf.child.name, hre.space⟩
    obtain ⟨S', g', hrun', hnext⟩ := Next.of_cleared (a := .fork p) ht (hf.claimed.setMem k₂ t₂) hi₂
      (by rw [Ghost.setTree_tree_self]; exact hl₂)
    refine ⟨-1, S', g', ?_, hnext⟩
    rw [hrun, hrun', ok_bind]
  · rw [hrun]
    have hx : S₁.proc p = S.proc p := hf.claimed.others p fun hc => hst (hc ▸ hf.claimed.unused)
    exact forkFinish_next ht hp hf.claimed hf.inv (by rw [g.setTree_tree_self]; exact hf.child) hst₁
      (by rw [g.setTree_tree_self, hf.size, hx]; exact hre) tf

end Fork

end Xv6.Vm
