import Xv6.PageRoles

/-!
# Files, slots and panics

What the invariant says beside the roles of the pages: references to
open files are counted exactly, the slots of the process table are tied
together, and no call of a process panics or changes another process.
-/

namespace Xv6.Vm

open StepSystem Tally

variable {np : Nat} {M : Machine} {S S' S₁ : KSys np} {mem : Nat → Page}
  {acts : List (KAct np × List Bool)}

/-- The first process has a pipe and a child. -/
theorem pipe_and_fork : ∃ acts, ∃ S S' : KSys 2, kboot smallMachine 2 zeroMem = .ok S
    ∧ run (kStep smallMachine) S acts = some S' ∧ (S'.proc 1).state = .runnable
    ∧ (S'.file 0).ref = 2 ∧ (kStep smallMachine S' (.sbrk 0 1, [])).isSome := by
  obtain ⟨S, S', hboot, hrun, hP⟩ := bootRun_spec
    [(.userinit [19, 5, 0, 0], []), (.pipe 0 0, []), (.fork 0, [])]
    (fun S' => decide ((S'.proc 1).state = .runnable ∧ (S'.file 0).ref = 2
      ∧ (kStep smallMachine S' (.sbrk 0 1, [])).isSome)) (by decide +kernel)
  exact ⟨_, S, S', hboot, hrun, of_decide_eq_true hP⟩

/-- The `ref` of a file is the number of descriptors that name it. Each
end of a pipe has at most one file, and the pipe's word for that end is
set as long as it has one. -/
theorem file_references_exact (hboot : kboot M np mem = .ok S)
    (hrun : run (kStep M) S acts = some S') :
    (∀ f, (S'.file f).ref = tally (fds S') f
      ∧ ((S'.file f).ref = 0 → (S'.file f).type = .none))
    ∧ ∀ f, (S'.file f).type = .pipe → ∀ w,
      (S'.pipeWord (S'.file f).pipe (endOff w) ≠ 0 ↔
        ∃! g, (S'.file g).type = .pipe ∧ (S'.file g).pipe = (S'.file f).pipe
          ∧ (S'.file g).writable = w) := by
  obtain ⟨g, hi, -⟩ := run_sound hboot hrun
  refine ⟨fun f => ⟨hi.file.count f, hi.file.idle f⟩, fun f hf w => ⟨fun hw => ?_, ?_⟩⟩
  · obtain ⟨g, hg, hp, hgw⟩ : ∃ g, (S'.file g).type = .pipe
        ∧ (S'.file g).pipe = (S'.file f).pipe ∧ (S'.file g).writable = w := by
      rcases Bool.eq_or_eq_not w (S'.file f).writable with rfl | rfl
      · exact ⟨f, hf, rfl, rfl⟩
      · exact hi.file.shut f hf hw
    exact ⟨g, ⟨hg, hp, hgw⟩, fun g' ⟨hg', hp', hgw'⟩ =>
      hi.file.unique g' g hg' hg (hp'.trans hp.symm) (hgw'.trans hgw.symm)⟩
  · rintro ⟨g, ⟨hg, hp, rfl⟩, -⟩
    exact hp ▸ hi.file.opened g hg

theorem file_references_exact_fork : ∃ S' : KSys 2, (S'.file 0).ref = 2
    ∧ tally (fds S') 0 = 2 := by
  obtain ⟨_, S, S', hboot, hrun, -, href, -⟩ := pipe_and_fork
  exact ⟨S', href, ((file_references_exact hboot hrun).1 0).1.symm.trans href⟩

/-- A free slot has no memory, no parent and, like one that has exited,
no open files. A parent is a process that has not exited, and so is the
first process. -/
theorem slots_tied (hboot : kboot M np mem = .ok S) (hrun : run (kStep M) S acts = some S') :
    (∀ q, (S'.proc q).state = .unused → (S'.proc q).pagetable = none
      ∧ (S'.proc q).trapframe = none ∧ (S'.proc q).sz = 0 ∧ (S'.proc q).parent = none)
    ∧ (∀ q, (S'.proc q).state ≠ .runnable → ∀ fd, (S'.proc q).ofile fd = none)
    ∧ (∀ q r, (S'.proc q).parent = some r → (S'.proc r).state = .runnable)
    ∧ ∀ r, S'.initproc = some r → (S'.proc r).state = .runnable := by
  obtain ⟨g, hi, ht⟩ := run_sound hboot hrun
  refine ⟨fun q hq => ?_, ht.files, fun q r h => (ht.parent q r h).2, ht.init⟩
  have hv := hi.vacant hq
  refine ⟨hv.pagetable, hv.trapframe, hv.sz, ?_⟩
  rcases hp : (S'.proc q).parent with _ | r
  · rfl
  · exact absurd hq (ht.parent q r hp).1

theorem slots_tied_fork : ∃ S' : KSys 2, (S'.proc 1).state = .runnable
    ∧ ∀ r, (S'.proc 1).parent = some r → (S'.proc r).state = .runnable := by
  obtain ⟨_, S, S', hboot, hrun, hst, -⟩ := pipe_and_fork
  exact ⟨S', hst, (slots_tied hboot hrun).2.2.1 1⟩

/-- A call leaves the processes that it is not about alone, apart from a
child that the caller reaps. -/
theorem calls_spare_others (hboot : kboot M np mem = .ok S)
    (hrun : run (kStep M) S acts = some S') {a : KAct np × List Bool} (hcall : a.1.caller ≠ none)
    (hstep : kStep M S' a = some S₁) (q : Fin np) (hlive : (S'.proc q).state ≠ .unused)
    (hq : a.1.changes ≠ some q) :
    (S₁.proc q).state = .unused ∧ (S'.proc q).parent = a.1.caller
    ∨ (S₁.proc q).state = (S'.proc q).state ∧ (S₁.proc q).pagetable = (S'.proc q).pagetable
      ∧ (S₁.proc q).trapframe = (S'.proc q).trapframe ∧ (S₁.proc q).sz = (S'.proc q).sz
      ∧ (S₁.proc q).ofile = (S'.proc q).ofile := by
  obtain ⟨g, hi, ht⟩ := run_sound hboot hrun
  obtain ⟨g', hn⟩ := kStep_next hi ht hcall hstep
  by_cases hreap : Reaped S' S₁ q
  · exact .inl ⟨hreap.2, (hn.reaped q hreap).1⟩
  · have hs := hn.spared q hq hlive hreap
    obtain ⟨_, _, hl⟩ := hi.lives hlive
    obtain ⟨_, _, hl'⟩ := hn.inv.lives (hs.state ▸ hlive)
    -- the root is the name of the tree
    refine .inr ⟨hs.state, ?_, hs.trapframe, hs.sz, hs.ofile⟩
    rw [hl.pagetable, hl'.pagetable, ← hl.name, ← hl'.name, hs.tree]

theorem calls_spare_others_sbrk : ∃ S' S₁ : KSys 2,
    kStep smallMachine S' (.sbrk 0 1, []) = some S₁
    ∧ ((S₁.proc 1).state = .unused ∨ (S₁.proc 1).sz = (S'.proc 1).sz) := by
  obtain ⟨_, S, S', hboot, hrun, hst, -, hsome⟩ := pipe_and_fork
  obtain ⟨S₁, hstep⟩ := Option.isSome_iff_exists.mp hsome
  exact ⟨S', S₁, hstep, (calls_spare_others hboot hrun (by decide) hstep 1 (by simp [hst])
    (by decide)).imp And.left (·.2.2.2.1)⟩

end Xv6.Vm
