import Xv6.CountMapped
import Xv6.UserMem

/-!
# `sys_pinfo`

The report on the process table is made in a page of the kernel, slot by
slot with the slot's lock held, and stays there: it is not copied to the
user's structure, and the page is not freed. A slot that is not in use has
no page table, at which `countmapped` faults.

`Scanned` says all that the loop does to the rest of the system, for any
state; whether it runs to its end is decided by the page tables.
-/

namespace Xv6.Vm

open Function Transfer Radix StepSystem List Option
open ByteVec (Byte leNat)

variable {np : Nat}

/-- The system with the counter of `countmapped` and the locks of the
slots that this CPU holds. -/
structure PsSys (np : Nat) extends KSys np where
  count : BitVec 32
  held : Fin np → Bool

def PsSys.setMem (S : PsSys np) (k : Kmem) : PsSys np := { S with kmem := k }

/-! ## `struct psinfo` -/

abbrev MAX_PS_PROC : Nat := 64

/-- The offsets of the entries of slot `i`, and the size. -/
def activeOff (i : Nat) : Nat := 4 * i
def pidOff (i : Nat) : Nat := 4 * MAX_PS_PROC + 4 * i
def statesOff (i : Nat) : Nat := 8 * MAX_PS_PROC + 4 * i
def pagesOff (i : Nat) : Nat := 12 * MAX_PS_PROC + 4 * i
def nameOff (i : Nat) : Nat := 16 * MAX_PS_PROC + 16 * i
/-- The number of a state in `enum procstate`. -/
def stateCode : ProcState → Nat
  | .unused => 0
  | .used => 1
  | .sleeping => 2
  | .runnable => 3
  | .running => 4
  | .zombie => 5

/-- What `strncpy` stores. -/
def strncpy (t : List Byte) (n : Nat) : List Byte :=
  let s := (t.takeWhile (· ≠ 0)).take n
  s ++ replicate (n - s.length) 0

/-! ## The call -/

def acquire (S : PsSys np) (i : Fin np) : Except Fault (PsSys np) :=
  if S.held i then .error .acquire else .ok { S with held := update S.held i true }

def release (S : PsSys np) (i : Fin np) : PsSys np :=
  { S with held := update S.held i false }

/-- The entry of a slot, but for its pages. -/
def slotEntry (x : Proc np) (i : Nat) (page : Page) : Page :=
  (((page.setWord 4 (activeOff i) 1).setWord 4 (pidOff i) x.pid).setWord 4 (statesOff i)
    (stateCode x.state)).patch (nameOff i) (strncpy x.name 16)

/-- A round of the loop. A null page table is address 0. -/
def pinfoSlot (psinfo : Nat) (S : PsSys np) (i : Fin np) : Except Fault (PsSys np) := do
  let S ← acquire S i
  let page := slotEntry (S.proc i) i (S.kmem.cell psinfo)
  let S := S.setMem (S.kmem.setPage psinfo page)
  let numUsed ← countmapped S.kmem.cell ((S.proc i).pagetable.getD 0) S.count.toNat
  let S := { S.setMem (S.kmem.setPage psinfo (page.setWord 4 (pagesOff i) numUsed)) with
    count := BitVec.ofNat 32 numUsed }
  .ok (release S i)

/-- `sys_pinfo`. The argument is stored at the start of the new page, not
in a variable; `argaddr` does not fail. -/
def sysPinfo (S : PsSys np) (p : Fin np) : Except Fault (Int × PsSys np) :=
  match kalloc S.kmem, (S.proc p).trapframe with
  | (some psinfo, k), some tf => do
      let k := k.setPage psinfo ((k.cell psinfo).setWord 8 0 ((k.cell tf).word 8 a0Off))
      let S ← (finRange np).foldlM (pinfoSlot psinfo) (S.setMem k)
      .ok (0, S)
  | _, _ => .error .nullPointer

/-! ## What the loop leaves -/

/-- Only the page `buf` and the counter are different. -/
structure Scanned (buf : Nat) (S S' : PsSys np) : Prop where
  sys : S'.toKSys = S.toKSys.setMem S'.kmem
  cells : ∀ x ≠ buf, S'.kmem.cell x = S.kmem.cell x
  free : S'.kmem.free = S.kmem.free
  held : S'.held = S.held

section Scan

variable {buf : Nat} {S S' S'' : PsSys np} {i : Fin np}

theorem Scanned.refl (buf : Nat) (S : PsSys np) : Scanned buf S S := ⟨rfl, fun _ _ => rfl, rfl, rfl⟩

theorem Scanned.trans (h₁ : Scanned buf S S') (h₂ : Scanned buf S' S'') : Scanned buf S S'' where
  sys := by rw [h₂.sys, h₁.sys]; rfl
  cells x hx := (h₂.cells x hx).trans (h₁.cells x hx)
  free := h₂.free.trans h₁.free
  held := h₂.held.trans h₁.held

theorem Scanned.proc (h : Scanned buf S S') : S'.proc = S.proc := by
  rw [h.sys]
  rfl

theorem pinfoSlot_held (hheld : S.held i = true) : pinfoSlot buf S i = .error .acquire := by
  rw [pinfoSlot, acquire, hheld]
  rfl

/-- The round of slot `i` when its lock is free. -/
theorem pinfoSlot_eq (hfree : S.held i = false) :
    pinfoSlot buf S i =
      let page := slotEntry (S.proc i) i (S.kmem.cell buf)
      let mem := update S.kmem.cell buf page
      (countmapped mem ((S.proc i).pagetable.getD 0) S.count.toNat).map fun numUsed =>
        { S.setMem (S.kmem.setPage buf (page.setWord 4 (pagesOff i) numUsed)) with
          count := BitVec.ofNat 32 numUsed } := by
  have hheld : update (update S.held i true) i false = S.held := by grind
  have hcells : ∀ page page' : Page, update (update S.kmem.cell buf page) buf page'
      = update S.kmem.cell buf page' := fun page page' => update_idem ..
  rw [pinfoSlot, acquire, hfree]
  simp only [PsSys.setMem, Kmem.setPage, release, Bool.false_eq_true, if_false]
  show (countmapped _ _ _ >>= fun _ => _) = _
  cases countmapped _ _ _ with
  | error e => rfl
  | ok n =>
    show Except.ok _ = Except.ok _
    simp only [hheld, hcells]

/-- A round that ends. -/
theorem pinfoSlot_scanned (h : pinfoSlot buf S i = .ok S') : Scanned buf S S' := by
  cases hheld : S.held i with
  | true =>
    rw [pinfoSlot_held hheld] at h
    cases h
  | false =>
    rw [pinfoSlot_eq hheld] at h
    dsimp only at h
    cases hc : countmapped _ _ _ with
    | error e =>
      rw [hc] at h
      cases h
    | ok n =>
      rw [hc] at h
      cases h
      exact ⟨rfl, fun _ hx => update_of_ne hx .., rfl, rfl⟩

/-- The loop, when it ends. -/
theorem pinfoLoop_scanned {is : List (Fin np)} : ∀ {S : PsSys np},
    is.foldlM (pinfoSlot buf) S = .ok S' → Scanned buf S S' := by
  induction is with
  | nil =>
    intro S h
    cases h
    exact .refl ..
  | cons i is ih =>
    intro S h
    rw [foldlM_cons] at h
    obtain ⟨S₁, h₁, h₂⟩ := Ends.bind_ok h
    exact (pinfoSlot_scanned h₁).trans (ih h₂)

theorem kalloc_some {k k' : Kmem} {pg : Nat} (h : kalloc k = (some pg, k')) :
    k.free = pg :: k'.free ∧ ∀ x ≠ pg, k'.cell x = k.cell x := by
  unfold kalloc at h
  split at h
  · cases h
  · split at h
    · cases h
    · rename_i hfree
      cases h
      grind

/-- The rest of the system after a call that returns: a page is gone from
the free list, and only that page is different. -/
theorem sysPinfo_returns {p : Fin np} {r : Int} (h : sysPinfo S p = .ok (r, S')) :
    r = 0 ∧ S'.held = S.held ∧ S'.proc = S.proc ∧ ∃ buf, S.kmem.free = buf :: S'.kmem.free
      ∧ ∀ x ≠ buf, S'.kmem.cell x = S.kmem.cell x := by
  unfold sysPinfo at h
  split at h
  · rename_i buf k tf hk htf
    obtain ⟨S₁, h₁, h₂⟩ := Ends.bind_ok h
    cases h₂
    have hs := pinfoLoop_scanned h₁
    obtain ⟨hfree, hcells⟩ := kalloc_some hk
    refine ⟨rfl, hs.held, hs.proc, buf, by rw [hfree, hs.free]; rfl, fun x hx => ?_⟩
    rw [hs.cells x hx, ← hcells x hx]
    exact update_of_ne hx ..
  · cases h

end Scan

/-! ## Whether it returns -/

/-- The slot has a page table, well formed whatever the page `buf` holds. -/
def Countable (buf : Nat) (S : PsSys np) (i : Fin np) : Prop :=
  ∃ pt, (S.proc i).pagetable = some pt
    ∧ ∀ mem, (∀ x ≠ buf, mem x = S.kmem.cell x) → PageTable mem pt

section Loop

variable {buf : Nat} {S S' : PsSys np} {i : Fin np}

theorem Countable.congr (hc : Countable buf S i) (hproc : S'.proc = S.proc)
    (hcells : ∀ x ≠ buf, S'.kmem.cell x = S.kmem.cell x) : Countable buf S' i := by
  obtain ⟨pt, hpt, htable⟩ := hc
  exact ⟨pt, hproc ▸ hpt, fun mem hmem => htable mem fun x hx => (hmem x hx).trans (hcells x hx)⟩

theorem pinfoSlot_ok (hfree : S.held i = false) (hc : Countable buf S i) :
    ∃ S', pinfoSlot buf S i = .ok S' := by
  obtain ⟨pt, hpt, htable⟩ := hc
  rw [pinfoSlot_eq hfree, hpt]
  dsimp only [getD_some]
  rw [countmapped_eq (htable _ fun x hx => update_of_ne hx ..) S.count.isLt]
  exact ⟨_, rfl⟩

/-- A slot without a page table. -/
theorem pinfoSlot_null (hfree : S.held i = false) (hnone : (S.proc i).pagetable = none) :
    pinfoSlot buf S i = .error .nullPointer := by
  rw [pinfoSlot_eq hfree, hnone]
  rfl

/-- The loop stops at the first slot without a page table. -/
theorem pinfoLoop_cases {is : List (Fin np)} : ∀ {S : PsSys np}, (∀ i, S.held i = false) →
    (∀ i ∈ is, (S.proc i).pagetable = none ∨ Countable buf S i) →
    (∀ i ∈ is, (S.proc i).pagetable ≠ none) ∧ (∃ S', is.foldlM (pinfoSlot buf) S = .ok S')
      ∨ (∃ i ∈ is, (S.proc i).pagetable = none)
        ∧ is.foldlM (pinfoSlot buf) S = .error .nullPointer := by
  induction is with
  | nil => exact fun _ _ => .inl ⟨fun i hi => absurd hi not_mem_nil, _, rfl⟩
  | cons i is ih =>
    intro S hfree hslots
    rcases hslots i mem_cons_self with hnone | hc
    · refine .inr ⟨⟨i, mem_cons_self, hnone⟩, ?_⟩
      rw [foldlM_cons, pinfoSlot_null (hfree i) hnone]
      rfl
    · obtain ⟨S₁, h₁⟩ := pinfoSlot_ok (hfree i) hc
      have hs := pinfoSlot_scanned h₁
      have hne : (S.proc i).pagetable ≠ none := by
        obtain ⟨pt, hpt, -⟩ := hc
        simp [hpt]
      rw [foldlM_cons, h₁]
      have hfree₁ : ∀ j, S₁.held j = false := fun j => hs.held ▸ hfree j
      have hslots₁ : ∀ j ∈ is, (S₁.proc j).pagetable = none ∨ Countable buf S₁ j := fun j hj => by
        rw [hs.proc]
        exact (hslots j (mem_cons_of_mem _ hj)).imp_right fun hc => hc.congr hs.proc hs.cells
      rcases ih hfree₁ hslots₁ with ⟨hall, S', hS'⟩ | ⟨⟨j, hj, hnone⟩, herr⟩
      · refine .inl ⟨fun j hj => ?_, S', hS'⟩
        rcases mem_cons.mp hj with rfl | hj
        exacts [hne, hs.proc ▸ hall j hj]
      · exact .inr ⟨⟨j, mem_cons_of_mem _ hj, hs.proc ▸ hnone⟩, herr⟩

end Loop

/-! ## Reachable states -/

/-- A system at a call: a state that was reached, with the outcomes of
`kalloc` and no lock held. -/
def KSys.atCall (S : KSys np) (fails : List Bool) (count : BitVec 32) : PsSys np :=
  { S.setMem { S.kmem with fails := fails } with count := count, held := fun _ => false }

section Reachable

variable {M : Machine} {S : KSys np} {g : Ghost np} {fails : List Bool} {count : BitVec 32} {p i : Fin np}
  {buf : Nat}

/-- A free page is none of a slot's. -/
theorem KInv.free_notMem (hi : KInv M S g []) (hbuf : buf ∈ S.kmem.free) :
    buf ∉ slotPages (S.proc i) (g.tree i) := fun hmem =>
  (hi.slot_owned i).notMem_free hmem hbuf

theorem KInv.countable (hi : KInv M S g []) (hbuf : buf ∈ S.kmem.free) :
    (S.proc i).state = .unused ∧ (S.proc i).pagetable = none
      ∨ (S.proc i).state ≠ .unused ∧ Countable buf (S.atCall fails count) i := by
  rcases hi.slot i with hv | ⟨hst, pt, tf, hl⟩
  · exact .inl ⟨hv.state, hv.pagetable⟩
  · refine .inr ⟨hst, pt, hl.pagetable, fun mem hmem => ?_⟩
    have hnot : buf ∉ (g.tree i).nodes := fun hc => hi.free_notMem hbuf
      (Multiset.mem_add.mpr (.inl (Multiset.mem_add.mpr (.inl hc))))
    have hok : ∀ x ∈ (g.tree i).nodes, M.IsPage x := fun x hx =>
      (hl.owned (hi.slot_owned i)).left.ok_owned hx
    exact hl.space.pageTable (hl.rep.frame fun x hx => hmem x fun hc => hnot (hc ▸ hx)) hok hl.name

/-- A call returns when there is a page for the buffer and every slot is
in use, and faults otherwise. -/
theorem KInv.sysPinfo_cases (hi : KInv M S g []) (fails : List Bool) (count : BitVec 32) {tf : Nat}
    (htf : (S.proc p).trapframe = some tf) :
    ((kalloc (S.atCall fails count).kmem).1 ≠ none ∧ ∀ i, (S.proc i).state ≠ .unused)
        ∧ (∃ S', sysPinfo (S.atCall fails count) p = .ok (0, S'))
      ∨ ((kalloc (S.atCall fails count).kmem).1 = none ∨ ∃ i, (S.proc i).state = .unused)
        ∧ sysPinfo (S.atCall fails count) p = .error .nullPointer := by
  have htf' : ((S.atCall fails count).proc p).trapframe = some tf := htf
  rcases hk : kalloc (S.atCall fails count).kmem with ⟨_ | buf, k⟩
  · simp [sysPinfo, hk, htf']
  · obtain ⟨hfree, hcells⟩ := kalloc_some hk
    have hbuf : buf ∈ S.kmem.free := by
      rw [show S.kmem.free = buf :: k.free from hfree]
      exact mem_cons_self
    -- the loop starts with the argument in the page
    let S₁ := (S.atCall fails count).setMem
      (k.setPage buf ((k.cell buf).setWord 8 0 ((k.cell tf).word 8 a0Off)))
    have hcells₁ : ∀ x ≠ buf, S₁.kmem.cell x = (S.atCall fails count).kmem.cell x := fun x hx =>
      (update_of_ne hx ..).trans (hcells x hx)
    have hcall : sysPinfo (S.atCall fails count) p
        = ((finRange np).foldlM (pinfoSlot buf) S₁ >>= fun S => .ok (0, S)) := by
      simp only [sysPinfo, hk, htf']
      rfl
    have hslots : ∀ i ∈ finRange np, (S₁.proc i).pagetable = none ∨ Countable buf S₁ i :=
      fun i _ => (hi.countable hbuf).imp And.right fun hc => hc.2.congr rfl hcells₁
    have hstate : ∀ i, (S.proc i).pagetable = none ↔ (S.proc i).state = .unused := fun i => by
      rcases hi.slot i with hv | ⟨hst, pt, tf, hl⟩
      · exact iff_of_true hv.pagetable hv.state
      · exact iff_of_false (by simp [hl.pagetable]) hst
    rw [hcall]
    rcases pinfoLoop_cases (fun _ => rfl) hslots with ⟨hall, S', hS'⟩ | ⟨⟨i, -, hnone⟩, herr⟩
    · refine .inl ⟨⟨nofun, fun i hst => hall i (mem_finRange i) ((hstate i).mpr hst)⟩, S', ?_⟩
      rw [hS']
      rfl
    · refine .inr ⟨.inr ⟨i, (hstate i).mp hnone⟩, ?_⟩
      rw [herr]
      rfl

end Reachable

/-! ## Pages and locks -/

/-- The call returns, with all locks free and the free pages as before. -/
def Harmless (S : PsSys np) (p : Fin np) : Prop :=
  ∃ r S', sysPinfo S p = .ok (r, S') ∧ (∀ i, S'.held i = false) ∧ S'.kmem.free.Perm S.kmem.free

/-- A call after the other, each with its caller and the outcomes of
`kalloc`. -/
def pinfoStep (S : PsSys np) (a : Fin np × List Bool) : Option (PsSys np) :=
  (sysPinfo (S.setMem { S.kmem with fails := a.2 }) a.1).toOption.map Prod.snd

theorem sysPinfo_length {S S' : PsSys np} {p : Fin np} {r : Int} (h : sysPinfo S p = .ok (r, S')) :
    S'.kmem.free.length + 1 = S.kmem.free.length := by
  obtain ⟨-, -, -, buf, hfree, -⟩ := sysPinfo_returns h
  rw [hfree, length_cons]

/-- Each call that returns has taken a page. -/
theorem run_pinfo_length {calls : List (Fin np × List Bool)} : ∀ {S S' : PsSys np},
    run pinfoStep S calls = some S' →
      S'.kmem.free.length + calls.length = S.kmem.free.length := by
  induction calls with
  | nil =>
    simp
  | cons a calls ih =>
    intro S S' h
    obtain ⟨S₁, h₁, h₂⟩ := run_cons.mp h
    obtain ⟨⟨r, T⟩, hT, rfl⟩ := map_eq_some_iff.mp h₁
    have hcall : sysPinfo (S.setMem { S.kmem with fails := a.2 }) a.1 = .ok (r, T) := by
      cases hc : sysPinfo (S.setMem { S.kmem with fails := a.2 }) a.1 with
      | error e =>
        rw [hc] at hT
        cases hT
      | ok x =>
        rw [hc] at hT
        exact congrArg Except.ok (some.inj hT)
    have hlen := sysPinfo_length hcall
    change T.kmem.free.length + 1 = S.kmem.free.length at hlen
    grind

/-- No call of `sys_pinfo` is harmless: one that returns leaves a page
less. It faults at a null pointer exactly when it gets no page or a slot
is not in use; otherwise it returns, with all locks free. -/
theorem pinfo_never_harmless (T₀ : PsSys np) (p : Fin np) :
    ¬Harmless T₀ p
    ∧ (∀ {M : Machine} {S S' : KSys np} {mem : Nat → Page} {acts : List (KAct np × List Bool)},
      kboot M np mem = .ok S → run (kStep M) S acts = some S' → ∀ (tf : Nat) (fails : List Bool)
        (count : BitVec 32), (S'.proc p).trapframe = some tf →
      (sysPinfo (S'.atCall fails count) p = .error .nullPointer ↔
        (kalloc (S'.atCall fails count).kmem).1 = none ∨ ∃ i, (S'.proc i).state = .unused)
      ∧ ((kalloc (S'.atCall fails count).kmem).1 ≠ none → (∀ i, (S'.proc i).state ≠ .unused) →
        ∃ T, sysPinfo (S'.atCall fails count) p = .ok (0, T) ∧ (∀ i, T.held i = false)
          ∧ T.kmem.free.length + 1 = S'.kmem.free.length))
    ∧ ∀ {T : PsSys np} {calls : List (Fin np × List Bool)}, run pinfoStep T₀ calls = some T →
        T.kmem.free.length + calls.length = T₀.kmem.free.length := by
  refine ⟨?_, ?_, fun h => run_pinfo_length h⟩
  · rintro ⟨r, S', hcall, -, hperm⟩
    have h₁ := sysPinfo_length hcall
    have h₂ := hperm.length_eq
    omega
  · intro M S S' mem acts hboot hrun tf fails count htf
    obtain ⟨g, hi, -⟩ := run_sound hboot hrun
    rcases hi.sysPinfo_cases fails count htf with ⟨⟨hk, hused⟩, T, hT⟩ | ⟨hbad, herr⟩
    · refine ⟨?_, fun _ _ => ⟨T, hT, fun i => ?_, sysPinfo_length hT⟩⟩
      · grind
      · rw [(sysPinfo_returns hT).2.1]
        rfl
    · grind

/-- With two slots in use a call returns, and a page is gone. -/
theorem pinfo_never_harmless_full : ∃ (S : KSys 2) (T : PsSys 2),
    sysPinfo (S.atCall [] 0) 0 = .ok (0, T) ∧ T.kmem.free.length + 1 = S.kmem.free.length := by
  obtain ⟨S, S', hboot, hrun, hP⟩ := bootRun_spec
    [(.userinit [19, 5, 0, 0], []), (.fork 0, [])]
    (fun S => decide ((S.proc 0).trapframe ≠ none ∧ (kalloc (S.atCall [] 0).kmem).1 ≠ none
      ∧ ∀ i, (S.proc i).state ≠ .unused)) (by decide +kernel)
  obtain ⟨hne, hk, hused⟩ := of_decide_eq_true hP
  obtain ⟨tf, htf⟩ := ne_none_iff_exists'.mp hne
  obtain ⟨T, hT, -, hlen⟩ :=
    ((pinfo_never_harmless (S'.atCall [] 0) 0).2.1 hboot hrun tf [] 0 htf).2 hk hused
  exact ⟨S', T, hT, hlen⟩

/-- With one of two slots in use the kernel faults. -/
theorem pinfo_null_pagetable : ∃ S : KSys 2, (kalloc (S.atCall [] 0).kmem).1 ≠ none
    ∧ sysPinfo (S.atCall [] 0) 0 = .error .nullPointer := by
  obtain ⟨S, S', hboot, hrun, hP⟩ := bootRun_spec [(.userinit [19, 5, 0, 0], [])]
    (fun S => decide ((S.proc 0).trapframe ≠ none ∧ (kalloc (S.atCall [] 0).kmem).1 ≠ none
      ∧ (S.proc 1).state = .unused)) (by decide +kernel)
  obtain ⟨hne, hk, hunused⟩ := of_decide_eq_true hP
  obtain ⟨tf, htf⟩ := ne_none_iff_exists'.mp hne
  obtain ⟨g, hi, -⟩ := run_sound hboot hrun
  rcases hi.sysPinfo_cases [] 0 htf with ⟨⟨-, hused⟩, -⟩ | ⟨-, herr⟩
  · exact absurd hunused (hused 1)
  · exact ⟨S', hk, herr⟩

/-! ## The report -/

/-- The `int` at a user address. -/
def userInt (k : Kmem) (pagetable va : Nat) : Nat := leNat (userBytes k pagetable va 4)

/-- The user's structure at `addr`, in the memory `k`, has the entry that
slot `i` should have. -/
structure Reported (S : PsSys np) (k : Kmem) (pagetable addr : Nat) (i : Fin np) : Prop where
  active : userInt k pagetable (addr + activeOff i) = 1 ↔ (S.proc i).state ≠ .unused
  pid : (S.proc i).state ≠ .unused →
    userInt k pagetable (addr + pidOff i) = (S.proc i).pid % 2 ^ 32
  state : (S.proc i).state ≠ .unused →
    userInt k pagetable (addr + statesOff i) = stateCode (S.proc i).state
  name : (S.proc i).state ≠ .unused →
    userBytes k pagetable (addr + nameOff i) 16 = strncpy (S.proc i).name 16
  pages : ∀ pt, (S.proc i).pagetable = some pt →
    userInt k pagetable (addr + pagesOff i) = leaves S.kmem.cell 2 pt

section Report

variable {M : Machine} {S : KSys np} {g : Ghost np} {fails : List Bool} {count : BitVec 32}
  {p i : Fin np} {k k' : Kmem} {pagetable tf buf addr : Nat}

/-- The same user memory holds the same report. -/
theorem Reported.congr {T : PsSys np} (h : Reported T k pagetable addr i)
    (hbytes : userBytes k' pagetable = userBytes k pagetable) : Reported T k' pagetable addr i := by
  have hint : ∀ va, userInt k' pagetable va = userInt k pagetable va := fun va => by
    rw [userInt, userInt, hbytes]
  constructor
  · rw [hint]
    exact h.active
  · rw [hint]
    exact h.pid
  · rw [hint]
    exact h.state
  · rw [hbytes]
    exact h.name
  · rw [hint]
    exact h.pages

end Report

local instance neZero_two : NeZero 2 := ⟨by decide⟩

end Xv6.Vm
