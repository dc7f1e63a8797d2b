import Xv6.ExecArgs

/-!
# `exec` replaces a process or leaves it alone

Whatever file and arguments a system call gives, and however the
allocations end, `exec` comes back: no loop runs on, no panic is reached
and no store misses the array. When it returns -1, the process and its
memory are what they were, and the free pages are the same again.
-/

namespace Xv6.Vm

open Transfer Radix StepSystem Multiset
open ByteVec (Byte leBytes)

variable {np : Nat}

/-- A call that failed left `p`, and everything else but free pages,
alone. -/
structure Untouched (S : KSys np) (p : Fin np) (S' : KSys np) : Prop where
  view : SameView S p S'
  rest : S' = S.setMem S'.kmem
  pages : ∀ x ∉ S.kmem.free, S'.kmem.cell x = S.kmem.cell x
  free : S'.kmem.free.Perm S.kmem.free

section Whole

variable {M : Machine} {S S' : KSys np} {p : Fin np} {t : Table} {pt tf : Nat}

theorem Balanced.untouched (hb : Balanced S S') (hl : Lives M S.kmem.cell (S.proc p) t pt tf)
    (hown : Custody M.IsPage S.kmem.toStore (slotPages (S.proc p) t)) : Untouched S p S' := by
  have hpages : ∀ x ∉ S.kmem.free, S'.kmem.cell x = S.kmem.cell x := fun x hx =>
    hb.moves.frame x (notMem_zero x) hx
  have hfree := hb.moves.conserve
  rw [add_zero, add_zero] at hfree
  refine ⟨hl.sameView hown ?_ fun x hx => hpages x (hown.notMem_free hx), hb.rest, hpages,
    coe_eq_coe.mp hfree⟩
  rw [hb.rest]
  rfl

/-- `sys_exec`, and `exec` with the arguments `sys_exec` built, whose pages
are freed once afterwards. -/
theorem exec_all_or_nothing {mem : Nat → Page} {acts : List (KAct np × List Bool)}
    {S₀ S₁ : KSys np} (hboot : kboot M np mem = .ok S₀) (hrun : run (kStep M) S₀ acts = some S₁)
    (hp : (S₁.proc p).state ≠ .unused) (fails : List Bool)
    (hS : S = S₁.setMem { S₁.kmem with fails := fails })
    (namei : List Byte → Option (List Byte)) (upath uargv : Nat) (ustack : Ustack) {fuel : Nat}
    (hfuel : 2 ^ 20 ≤ fuel) :
    (∃ r S', sysExecWords M fuel ustack S p namei upath uargv = .ok (r, S')
      ∧ (r = -1 → Untouched S p S'))
    ∧ ∀ pt argv k path, (S.proc p).pagetable = some pt →
      fetchArgs pt (S.proc p).sz uargv MAXARG S.kmem [] = (true, argv, k) →
      ∃ r S', execWords M fuel ustack (S.setMem k) p namei path argv.reverse = .ok (r, S')
        ∧ (r = -1 → Untouched (S.setMem k) p S'
          ∧ (argv ++ S'.kmem.free).Perm S.kmem.free ∧ (argv ++ S'.kmem.free).Nodup) := by
  subst hS
  obtain ⟨g, hi, -⟩ := run_sound hboot hrun
  have hi := hi.setFails fails
  obtain ⟨pt, tf, hl⟩ := hi.lives hp
  have hown := hi.slot_owned p
  refine ⟨?_, fun pt' argv k path hpt hfetch => ?_⟩
  · obtain ⟨r, S', t', -, -, -, hfail, hwords⟩ := sysExec_ok hl hp hown namei upath uargv
    exact ⟨r, S', hwords fuel ustack hfuel, fun hr => (hfail hr).untouched hl hown⟩
  · obtain rfl : pt = pt' := Option.some.inj (hl.pagetable.symm.trans hpt)
    obtain ⟨strs, hcalls⟩ := fetchArgs_calls hl hp hown hfetch
    obtain ⟨r, S', t', -, -, -, hfail, hwords⟩ := exec_ok hcalls.lives hp hcalls.slot_owned namei path
      argv.reverse
    refine ⟨r, S', hwords fuel ustack hfuel hcalls.few, fun hr => ?_⟩
    have hun := (hfail hr).untouched hcalls.lives hcalls.slot_owned
    -- what `exec` took is back, the argument pages are still out
    have hm := fetchArgs_moves pt (S₁.proc p).sz uargv (n := MAXARG)
      { S₁.kmem with fails := fails } []
    rw [show fetchArgs pt (S₁.proc p).sz uargv MAXARG { S₁.kmem with fails := fails } []
      = (true, argv, k) from hfetch] at hm
    have hperm : (argv ++ S'.kmem.free).Perm S₁.kmem.free := by
      refine coe_eq_coe.mp ?_
      rw [← coe_add, coe_eq_coe.mpr hun.free, add_comm]
      exact hm.conserve.trans (add_zero _)
    have hnodup : S₁.kmem.free.Nodup :=
      Multiset.coe_nodup.mp (Multiset.nodup_of_le (Multiset.le_add_right ..) hown.nodup)
    exact ⟨hun, hperm, hperm.nodup_iff.mpr hnodup⟩

/-- The first process calls `exec` with one argument on a file that is cut
off: the argument page is free again. -/
theorem exec_all_or_nothing_short : ∃ S S' : KSys 2,
    sysExecWords smallMachine (2 ^ 20) (fun _ => 0) S 0 (fun _ => some [127]) 16 0 = .ok (-1, S')
      ∧ Untouched S 0 S' := by
  obtain ⟨S₀, S, hboot, hrun, hP⟩ := bootRun_spec
    [(.userinit (leBytes 8 16 ++ leBytes 8 0 ++ [97, 98, 0]), [])]
    (fun S => decide ((S.proc 0).state ≠ .unused)
      && (sysExecWords smallMachine (2 ^ 20) (fun _ => 0) (S.setMem { S.kmem with fails := [] }) 0
        (fun _ => some [127]) 16 0).toOption.any fun r : Int × KSys 2 => decide (r.1 = -1))
    (by decide +kernel)
  simp only [Bool.and_eq_true, decide_eq_true_eq] at hP
  obtain ⟨hp, hfails⟩ := hP
  obtain ⟨r, S', hexec, hun⟩ := (exec_all_or_nothing hboot hrun hp [] rfl (fun _ => some [127]) 16 0
    (fun _ => 0) (Nat.le_refl (2 ^ 20))).1
  rw [hexec] at hfails
  obtain rfl : r = -1 := of_decide_eq_true hfails
  exact ⟨_, S', hexec, hun rfl⟩

end Whole

end Xv6.Vm
