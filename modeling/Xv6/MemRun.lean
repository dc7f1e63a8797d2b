import Xv6.MemBoot

/-!
# Whole runs

From `kboot` on, after any calls with `kalloc` failing anywhere, the
ownership invariant holds, and no call by a process panics. Along a run
in which the processes that were there do nothing to their own memory
and files, what they and the kernel own stays the same.
-/

namespace Xv6.Vm

open Transfer Radix Tally StepSystem Option
open ByteVec (Byte)

variable {np : Nat} {M : Machine} {S S' S'' : KSys np} {g g' g'' : Ghost np}

/-- The invariant, whatever the trees are. -/
def Sound (M : Machine) (S : KSys np) : Prop := ∃ g, KInv M S g [] ∧ TieInv S

/-- A call by a process does not panic. -/
theorem kcall_next {a : KAct np} (hi : KInv M S g []) (ht : TieInv S) (hen : a.Enabled S)
    (hcall : a.caller ≠ none) :
    ∃ o, kcall M S a = .ok o ∧ ∀ S', o = some S' → ∃ g', Next M S g a S' g' := by
  obtain ⟨hrun, hexit⟩ := hen
  cases a with
  | kvminit => exact absurd rfl hcall
  | userinit initcode => exact absurd rfl hcall
  | fork p =>
    obtain ⟨r, S', g', h, hn⟩ := fork_next hi ht (hrun p rfl)
    refine ⟨some S', ?_, fun S'' he => ⟨g', some.inj he ▸ hn⟩⟩
    show (fun r : Int × KSys np => some r.2) <$> fork M S p = _
    rw [h]
    rfl
  | exit p status =>
    obtain ⟨S', g', h, hn⟩ := exit_next hi ht (hrun p rfl) (hexit p rfl) status
    refine ⟨some S', ?_, fun S'' he => ⟨g', some.inj he ▸ hn⟩⟩
    show some <$> exit M S p status = _
    rw [h]
    rfl
  | wait p addr =>
    obtain ⟨o, h, hn⟩ := wait_next hi ht (hrun p rfl) addr
    refine ⟨o.map Prod.snd, ?_, fun S'' he => ?_⟩
    · show Option.map Prod.snd <$> wait M S p addr = _
      rw [h]
      rfl
    · obtain ⟨⟨r, S₁⟩, ho, rfl⟩ := map_eq_some_iff.mp he
      exact hn r S₁ ho
  | exec p namei upath uargv =>
    obtain ⟨r, S', g', h, hn⟩ := sysExec_next hi ht (hrun p rfl) namei upath uargv
    refine ⟨some S', ?_, fun S'' he => ⟨g', some.inj he ▸ hn⟩⟩
    show (fun r : Int × KSys np => some r.2) <$> sysExec M S p namei upath uargv = _
    rw [h]
    rfl
  | sbrk p n =>
    obtain ⟨r, S', g', h, hn⟩ := sysSbrk_next hi ht (hrun p rfl) n
    refine ⟨some S', ?_, fun S'' he => ⟨g', some.inj he ▸ hn⟩⟩
    show (fun r : Int × KSys np => some r.2) <$> sysSbrk M S p n = _
    rw [h]
    rfl
  | pipe p fdarray =>
    obtain ⟨r, S', g', h, hn⟩ := sysPipe_next hi ht (hrun p rfl) fdarray
    refine ⟨some S', ?_, fun S'' he => ⟨g', some.inj he ▸ hn⟩⟩
    show (fun r : Int × KSys np => some r.2) <$> sysPipe M S p fdarray = _
    rw [h]
    rfl
  | close p fd =>
    obtain ⟨r, S', g', h, hn⟩ := sysClose_next hi ht (hrun p rfl) fd
    refine ⟨some S', ?_, fun S'' he => ⟨g', some.inj he ▸ hn⟩⟩
    show (fun r : Int × KSys np => some r.2) <$> sysClose M S p fd = _
    rw [h]
    rfl
  | store p va b =>
    exact ⟨userStore S p va b, rfl, fun S' he => userStore_next hi ht (hrun p rfl) he⟩

/-- The outcomes of `kalloc` to come are not part of the invariant. -/
theorem KInv.setFails (h : KInv M S g []) (fails : List Bool) :
    KInv M (S.setMem { S.kmem with fails := fails }) g [] :=
  h.congr rfl rfl rfl fun _ => .refl _

theorem TieInv.setMem (h : TieInv S) (k : Kmem) : TieInv (S.setMem k) :=
  ⟨h.parent, h.init, h.files⟩

/-- The two calls of boot keep the invariant. -/
theorem boot_sound {a : KAct np} (hi : KInv M S g []) (ht : TieInv S) (hcall : a.caller = none)
    (h : kcall M S a = .ok (some S')) : Sound M S' := by
  cases a with
  | kvminit =>
    simp only [kcall] at h
    split at h
    · cases h
    · rename_i hnone
      cases hk : kvmmake M np S.kmem with
      | error e =>
        rw [hk] at h
        cases h
      | ok r =>
        rw [hk, Ends.ok_bind] at h
        obtain ⟨pt, k⟩ := r
        cases h
        exact kvminit_inv hi ht hnone hk
  | userinit initcode =>
    simp only [kcall] at h
    split at h
    · cases h
    · rename_i hnone
      cases hu : userinit M S initcode with
      | error e =>
        rw [hu] at h
        cases h
      | ok S₁ =>
        rw [hu, Ends.ok_bind] at h
        split at h
        · cases h
        · rename_i hfault
          cases h
          exact userinit_inv hi ht hnone hu hfault
  | fork p | exit p _ | wait p _ | exec p _ _ _ | sbrk p _ | pipe p _ | close p _ | store p _ _ =>
    cases hcall

/-- A step by a process. -/
theorem kStep_next {a : KAct np × List Bool} (hi : KInv M S g []) (ht : TieInv S)
    (hcall : a.1.caller ≠ none) (h : kStep M S a = some S') : ∃ g', Next M S g a.1 S' g' := by
  obtain ⟨a, fails⟩ := a
  unfold kStep at h
  split at h
  · rename_i hen
    obtain ⟨o, ho, hn⟩ := kcall_next (a := a) (hi.setFails fails) (ht.setMem _) hen hcall
    rw [ho] at h
    obtain ⟨g', hn⟩ := hn S' h
    refine ⟨g', hn.inv, hn.ties, fun r h1 h2 h3 => ?_, hn.reaped, hn.kern⟩
    have h := hn.spared r h1 h2 h3
    exact ⟨h.state, h.trapframe, h.sz, h.ofile, h.parent, h.tree, h.kept⟩
  · cases h

theorem kStep_sound {a : KAct np × List Bool} (hs : Sound M S) (h : kStep M S a = some S') :
    Sound M S' := by
  obtain ⟨g, hi, ht⟩ := hs
  by_cases hcall : a.1.caller = none
  · unfold kStep at h
    split at h
    · cases hc : kcall M (S.setMem { S.kmem with fails := a.2 }) a.1 with
      | error e =>
        rw [hc] at h
        cases h
      | ok o =>
        rw [hc] at h
        obtain rfl : o = some S' := h
        exact boot_sound (hi.setFails a.2) (ht.setMem _) hcall hc
    · cases h
  · obtain ⟨g', hn⟩ := kStep_next hi ht hcall h
    exact ⟨g', hn.inv, hn.ties⟩

/-- The invariant holds in every state that can be reached. -/
theorem run_sound {mem : Nat → Page} {acts : List (KAct np × List Bool)}
    (hboot : kboot M np mem = .ok S) (hrun : run (kStep M) S acts = some S') : Sound M S' := by
  obtain ⟨S₀, h₀, hi, ht⟩ := kboot_ok M np mem
  rw [hboot] at h₀
  cases h₀
  exact run_invariant kStep_sound ⟨_, hi, ht⟩ hrun

/-! ## Processes that leave their memory alone -/

/-- The processes of `S` neither exit nor change their memory or files
in this step, and none of them is reaped. -/
def Leaves (M : Machine) (S S₁ : KSys np) (a : KAct np × List Bool) : Prop :=
  a.1.caller ≠ none ∧ ∀ r, (S.proc r).state ≠ .unused →
    a.1.changes ≠ some r ∧ ∀ S₂ ∈ kStep M S₁ a, (S₂.proc r).state ≠ .unused

instance (M : Machine) (S S₁ : KSys np) (a : KAct np × List Bool) : Decidable (Leaves M S S₁ a) :=
  inferInstanceAs (Decidable (_ ∧ _))

/-- What the kernel and the processes of `S` own is still theirs. -/
structure Kept (S : KSys np) (g : Ghost np) (S' : KSys np) (g' : Ghost np) : Prop where
  kern : kernPages g' = kernPages g
  used : ∀ r, (S.proc r).state ≠ .unused → (S'.proc r).state ≠ .unused
  pages : ∀ r, (S.proc r).state ≠ .unused →
    slotPages (S'.proc r) (g'.tree r) = slotPages (S.proc r) (g.tree r)
  ofile : ∀ r, (S.proc r).state ≠ .unused → (S'.proc r).ofile = (S.proc r).ofile
  file : ∀ r, (S.proc r).state ≠ .unused → ∀ fd f, (S.proc r).ofile fd = some f →
    (S'.file f).type = (S.file f).type ∧ (S'.file f).pipe = (S.file f).pipe

theorem Kept.refl (S : KSys np) (g : Ghost np) : Kept S g S g :=
  ⟨rfl, fun _ h => h, fun _ _ => rfl, fun _ _ => rfl, fun _ _ _ _ _ => ⟨rfl, rfl⟩⟩

theorem Kept.next {a : KAct np × List Bool} (hk : Kept S g S' g') (hl : Leaves M S S' a)
    (hstep : kStep M S' a = some S'') (hn : Next M S' g' a.1 S'' g'') : Kept S g S'' g'' := by
  have hused : ∀ r, (S.proc r).state ≠ .unused → (S''.proc r).state ≠ .unused :=
    fun r hr => (hl.2 r hr).2 S'' hstep
  have hsp : ∀ r, (S.proc r).state ≠ .unused → Spared a.1.caller S' g' S'' g'' r := fun r hr =>
    hn.spared r (hl.2 r hr).1 (hk.used r hr) fun hc => hused r hr hc.2
  refine ⟨hn.kern.trans hk.kern, hused, fun r hr => ?_, fun r hr => ?_, fun r hr fd f hf => ?_⟩
  · have h := hsp r hr
    rw [slotPages_congr h.trapframe h.sz, h.tree]
    exact hk.pages r hr
  · exact (hsp r hr).ofile.trans (hk.ofile r hr)
  · obtain ⟨h1, h2⟩ := (hsp r hr).kept fd f (by rw [hk.ofile r hr]; exact hf)
    obtain ⟨h3, h4⟩ := hk.file r hr fd f hf
    exact ⟨h1.trans h3, h2.trans h4⟩

theorem run_kept {acts : List (KAct np × List Bool)} (hi : KInv M S g []) (ht : TieInv S)
    (hquiet : Along (kStep M) (Leaves M S) S acts) (hrun : run (kStep M) S acts = some S') :
    ∃ g', KInv M S' g' [] ∧ TieInv S' ∧ Kept S g S' g' := by
  refine run_invariant_along (I := fun S' => ∃ g', KInv M S' g' [] ∧ TieInv S' ∧ Kept S g S' g')
    ?_ ⟨g, hi, ht, .refl S g⟩ hquiet hrun
  rintro S₁ a S₂ ⟨g₁, hi₁, ht₁, hk₁⟩ hl hstep
  obtain ⟨g₂, hn⟩ := kStep_next hi₁ ht₁ hl.1 hstep
  exact ⟨g₂, hn.inv, hn.ties, hk₁.next hl hstep hn⟩

/-- A file that is open is open in a process. -/
theorem KInv.held (hi : KInv M S g []) (ht : TieInv S) {f : Fin NFILE}
    (hf : (S.file f).type ≠ .none) :
    ∃ q fd, (S.proc q).ofile fd = some f ∧ (S.proc q).state ≠ .unused := by
  have hcount := hi.file.count f
  rw [List.count_nil, Nat.add_zero] at hcount
  have hpos : 0 < tally (fds S) f := by
    rw [← hcount]
    exact Nat.pos_of_ne_zero fun hc => hf (hi.file.idle f hc)
  obtain ⟨⟨q, fd⟩, hfd⟩ := tally_pos.mp hpos
  refine ⟨q, fd, hfd, fun hu => ?_⟩
  have hnone := ht.files q (by rw [hu]; nofun) fd
  rw [show (S.proc q).ofile fd = some f from hfd] at hnone
  cases hnone

/-- When the processes that came are gone, the pipes are those that were
there. -/
theorem Kept.pipes (hk : Kept S g S' g') (hi : KInv M S g []) (ht : TieInv S) (hi' : KInv M S' g' [])
    (ht' : TieInv S') (hgone : ∀ q, (S.proc q).state = .unused → (S'.proc q).state = .unused) :
    pipePages S' = pipePages S := by
  ext y
  rw [mem_pipePages, mem_pipePages]
  constructor
  · rintro ⟨f, hf, rfl⟩
    obtain ⟨q, fd, hfd, hq⟩ := hi'.held ht' (f := f) (by rw [hf]; nofun)
    have hq' : (S.proc q).state ≠ .unused := fun hc => hq (hgone q hc)
    rw [hk.ofile q hq'] at hfd
    obtain ⟨h1, h2⟩ := hk.file q hq' fd f hfd
    exact ⟨f, h1.symm.trans hf, h2.symm⟩
  · rintro ⟨f, hf, rfl⟩
    obtain ⟨q, fd, hfd, hq⟩ := hi.held ht (f := f) (by rw [hf]; nofun)
    obtain ⟨h1, h2⟩ := hk.file q hq fd f hfd
    exact ⟨f, h1.trans hf, h2⟩

/-- A run that leaves the processes that were there alone, and at whose
end those that came are gone, leaves the free pages as they were. -/
theorem run_free_same {acts : List (KAct np × List Bool)} (hi : KInv M S g []) (ht : TieInv S)
    (hquiet : Along (kStep M) (Leaves M S) S acts) (hrun : run (kStep M) S acts = some S')
    (hgone : ∀ q, (S.proc q).state = .unused → (S'.proc q).state = .unused) :
    S'.kmem.free.Perm S.kmem.free := by
  obtain ⟨g', hi', ht', hk⟩ := run_kept hi ht hquiet hrun
  have hslots : ∑ q, slotPages (S'.proc q) (g'.tree q) = ∑ q, slotPages (S.proc q) (g.tree q) :=
    Finset.sum_congr rfl fun q _ => by
      by_cases hq : (S.proc q).state = .unused
      · rw [(hi.vacant hq).pages, (hi'.vacant (hgone q hq)).pages]
      · exact hk.pages q hq
  have huse : inUse S' g' = inUse S g := by
    rw [inUse, inUse, hk.kern, hslots, hk.pipes hi ht hi' ht' hgone]
  have htotal := hi'.total.trans hi.total.symm
  rw [huse] at htotal
  exact Multiset.coe_eq_coe.mp (add_right_cancel htotal)

end Xv6.Vm
