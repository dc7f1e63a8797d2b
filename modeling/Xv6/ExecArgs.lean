import Xv6.ExecImage
import Xv6.UserString

/-!
# Arguments survive `exec`

The strings in the kernel pages that `exec` is given are found again
through the new page table: an array of pointers at the stack pointer,
each to a copy of its string. Apart from what fails without any argument,
`exec` fails when the strings and the array, each rounded up to a
multiple of 16, take more than a page. `sys_exec` hands it pages of this
kind (`fetchArgs_calls`).
-/

namespace Xv6.Vm

open List Option Nat

open ByteVec (Byte leNat leBytes)
open Transfer Radix Ranges StepSystem

variable {np : Nat}

/-- The program of `p` starts with its stack pointer and `a1` at `sp` and
finds the arguments `strs` there, the `i`th at `ptr i`. -/
structure FindsArgs (S : KSys np) (p : Fin np) (strs : List (List Byte)) (pt tf sp : Nat)
    (ptr : Nat → Nat) : Prop where
  pagetable : (S.proc p).pagetable = some pt
  trapframe : (S.proc p).trapframe = some tf
  a1 : (S.kmem.cell tf).word 8 a1Off = sp
  stackPointer : (S.kmem.cell tf).word 8 spOff = sp
  aligned : sp % 16 = 0
  stack : ∀ va, (S.proc p).sz - PGSIZE ≤ va → va < (S.proc p).sz → UserAt S.kmem pt va
  pointer : ∀ i < strs.length, leNat (userBytes S.kmem pt (sp + 8 * i) 8) = ptr i
  last : leNat (userBytes S.kmem pt (sp + 8 * strs.length) 8) = 0
  string : ∀ i (hi : i < strs.length),
    userBytes S.kmem pt (ptr i) (strs[i].length + 1) = strs[i] ++ [0]
  inside : (S.proc p).sz - PGSIZE ≤ sp ∧ sp + 8 * (strs.length + 1) ≤ (S.proc p).sz
  above : ∀ i < strs.length, sp + 8 * (strs.length + 1) ≤ ptr i
  within : ∀ i (hi : i < strs.length), ptr i + (strs[i].length + 1) ≤ (S.proc p).sz
  disjoint : ∀ i j, i < j → (hj : j < strs.length) → ptr j + (strs[j].length + 1) ≤ ptr i

section Found

variable {M : Machine} {S S' : KSys np} {p : Fin np} {t : Table} {pt tf sz : Nat}
  {path content : List Byte} {strs : List (List Byte)} {g : Nat → Byte}

/-- An image with its arguments, as its program finds it. -/
theorem Committed.findsArgs (h : Committed M S p tf path content strs S' t pt sz g)
    (htf : (S.proc p).trapframe = some tf) (hu : UserPage t (npg sz + 1))
    (hfit : argSize strs ≤ 4096) :
    FindsArgs S' p strs pt tf ((npg sz + 1 + 1) * 4096 - argSize strs)
      (argPtr ((npg sz + 1 + 1) * 4096) strs) := by
  have hsz : (S'.proc p).sz = (npg sz + 1 + 1) * 4096 := by rw [h.proc]
  obtain ⟨top, htop⟩ : ∃ top, top = (npg sz + 1 + 1) * 4096 := ⟨_, rfl⟩
  have hlaid := h.laid
  have ha1 := h.a1
  have hsp := h.sp
  rw [← htop] at hsz hlaid ha1 hsp ⊢
  have hdef : argSize strs = stackSize strs + round16 (8 * (strs.length + 1)) := rfl
  have hround := le_round16 (8 * (strs.length + 1))
  have hmod := stackSize_mod strs
  have hmod' := round16_mod (8 * (strs.length + 1))
  have hpage : ∀ {va}, top - 4096 ≤ va → va < top → vpn va = npg sz + 1 := fun {va} h1 h2 => by
    show va / 4096 = _
    omega
  -- what lies in the stack page is read from `g`
  have hread : ∀ {va m}, top - 4096 ≤ va → va + m ≤ top →
      userBytes S'.kmem pt va m = Ranges.get g va m := fun {va m} h1 h2 =>
    h.holds.userBytes (by omega) fun i hi => by grind
  have hwords : ∀ i (hi : i < (argPtrs top strs ++ [0]).length),
      leNat (userBytes S'.kmem pt (top - argSize strs + 8 * i) 8)
        = (argPtrs top strs ++ [0])[i] % 256 ^ 8 := fun i hi => by
    have hi' : i < strs.length + 1 := by simpa using hi
    rw [hread (by omega) (by omega), get_flatMap (fun w => ByteVec.leBytes_length 8 w) hlaid.array i hi,
      ByteVec.leNat_leBytes]
  have hsmall : top < 2 ^ 64 := by
    have hle : npg sz + 1 + 1 ≤ 2 ^ 26 - 2 := h.holds.space.user.le
    omega
  refine ⟨by rw [h.proc], by rw [h.proc]; exact htf, ha1, hsp, by omega, fun va h1 h2 => ?_,
    fun i hi => ?_, ?_, fun i hi => ?_, ?_, fun i hi => ?_, fun i hi => ?_, fun i j hij hj => ?_⟩
  · rw [hsz] at h1 h2
    exact h.holds.userAt (by omega) (hpage h1 h2 ▸ hu)
  · rw [hwords i (by simp; omega), getElem_append_left (by simpa using hi)]
    simp only [argPtrs, getElem_map, getElem_range]
    exact mod_eq_of_lt (lt_of_le_of_lt (sub_le ..) hsmall)
  · rw [hwords strs.length (by simp), getElem_append_right (by simp)]
    simp
  · have h1 := le_argPtr strs i (show stackSize strs ≤ top by omega)
    have h2 := argPtr_end top hi (by omega)
    rw [hread (by omega) (by omega), hlaid.string i hi]
  · grind
  · have h1 := le_argPtr strs i (show stackSize strs ≤ top by omega)
    omega
  · have h2 := argPtr_end top hi (by omega)
    omega
  · exact argPtr_disjoint hij hj (by omega)

end Found

/-! ## What `sys_exec` hands over -/

section Fetch

variable {M : Machine} {x : Proc np} {t : Table} {pt tf sz uargv : Nat}

/-- A user address fetched from user memory. -/
theorem fetchaddr_lt {k : Kmem} (ht : NonzeroPages k pt) {addr uarg : Nat} (haddr : addr < 2 ^ 64)
    (h : fetchaddr k pt sz addr = some uarg) : uarg < 2 ^ 64 := by
  unfold fetchaddr at h
  split at h
  · cases h
  obtain ⟨m, hle, hin, hout⟩ := exists_stop (fun i => UserAt k pt (addr + i)) 8
  rw [(ht.copyin_spec haddr hle hin hout).2] at h
  split at h
  · rename_i hm
    have hlt := ByteVec.leNat_lt (userBytes k pt addr m)
    simp_all [userBytes, hm]
  · cases h

/-- The page that a string was copied into. -/
theorem argAt_patch {k : Kmem} (ht : NonzeroPages k pt) {uarg : Nat} (pg : Nat) {bytes : List Byte}
    (huarg : uarg < 2 ^ 64) (h : copyinstr k pt uarg PGSIZE = (true, bytes)) :
    ∃ s, ArgAt (k.setPage pg ((k.cell pg).patch 0 bytes)) pg s := by
  have hok : (copyinstr k pt uarg PGSIZE).1 = true := by rw [h]
  obtain ⟨j, hj, hstr⟩ := ht.string_of_copyinstr huarg hok
  rw [ht.copyinstr_of_string huarg hstr hj] at h
  have hlen : (userBytes k pt uarg j).length = j := by simp [userBytes]
  have hsplit : userBytes k pt uarg (j + 1) = userBytes k pt uarg j ++ [0] := by
    simp [userBytes, range_succ, hstr.nul]
  refine ⟨userBytes k pt uarg j, fun hc => ?_, by rw [hlen]; exact hj, ?_⟩
  · obtain ⟨i, hi, h0⟩ := mem_map.mp hc
    exact hstr.chars i (mem_range.mp hi) h0
  · have hself : ((k.cell pg).patch 0 (userBytes k pt uarg (j + 1))).slice 0
        (userBytes k pt uarg (j + 1)).length = userBytes k pt uarg (j + 1) :=
      ByteVec.slice_patch_self (by
        simp only [zero_add, userBytes, length_map, length_range]
        exact hj)
    simp only [Kmem.setPage, Function.update_self]
    grind

/-- The loop of `sys_exec` leaves the address space alone and puts each
string in a page of its own. -/
theorem fetchArgs_args {n : Nat} {argv' : List Nat} {k' : Kmem} : ∀ {k : Kmem} (argv : List Nat)
    (strs : List (List Byte)), Lives M k.cell x t pt tf →
    Custody M.IsPage k.toStore ((argv : Multiset Nat) + slotPages x t) →
    List.Forall₂ (ArgAt k) argv strs → fetchArgs pt sz uargv n k argv = (true, argv', k') →
      Lives M k'.cell x t pt tf
        ∧ Custody M.IsPage k'.toStore ((argv' : Multiset Nat) + slotPages x t)
        ∧ ∃ strs', List.Forall₂ (ArgAt k') argv' strs' := by
  induction n with
  | zero =>
    intro k argv strs _ _ _ h
    cases h
  | succ n ih =>
    intro k argv strs hl hown hargs h
    have ht : NonzeroPages k pt := hl.space.nonzeroPages hl.rep (hl.owned hown.right) hl.name
    unfold fetchArgs at h
    rcases hfetch : fetchaddr k pt sz ((uargv + 8 * argv.length) % 2 ^ 64) with _ | uarg
    · simp only [hfetch] at h
      cases h
    simp only [hfetch] at h
    split at h
    · -- the end of the vector
      grind
    have huarg := fetchaddr_lt ht (mod_lt _ (by decide)) hfetch
    rcases kalloc_cases k with ⟨k₁, he, -⟩ | ⟨pg, k₁, he, hm, -⟩
    · simp [he] at h
    simp only [he] at h
    have hm₁ : Moves k.toStore ((argv : Multiset Nat) + slotPages x t) k₁.toStore
        (((pg :: argv : List Nat) : Multiset Nat) + slotPages x t) := by
      refine (hm.add _).of_eq (zero_add _) ?_
      rw [← add_assoc, Multiset.singleton_add, Multiset.cons_coe]
    have hkeep : ∀ y ∈ (argv : Multiset Nat) + slotPages x t, k₁.cell y = k.cell y := fun y hy =>
      hm.frame y (Multiset.notMem_zero y) (hown.notMem_free hy)
    have hown₁ := hown.moves hm₁
    have hnew : ∀ y ∈ (argv : Multiset Nat) + slotPages x t, y ≠ pg := fun y hy hc => by
      rw [← Multiset.cons_coe, ← Multiset.singleton_add, add_assoc] at hown₁
      exact hown₁.notMem_left hy (Multiset.mem_singleton.mpr hc)
    have ht₁ : NonzeroPages k₁ pt := by
      have hl₁ : Lives M k₁.cell x t pt tf :=
        ⟨hl.pagetable, hl.trapframe, hl.rep.frame fun y hy => hkeep y (Multiset.mem_add.mpr
          (.inr (Multiset.mem_add.mpr (.inl (Multiset.mem_add.mpr (.inl hy)))))), hl.name, hl.space⟩
      exact hl₁.space.nonzeroPages hl₁.rep (hl₁.owned hown₁.right) hl₁.name
    rcases hcopy : copyinstr k₁ pt uarg PGSIZE with ⟨_ | _, bytes⟩
    · simp [hcopy] at h
    simp only [hcopy] at h
    obtain ⟨s, hat⟩ := argAt_patch ht₁ pg huarg hcopy
    have hpg : pg ∈ ((pg :: argv : List Nat) : Multiset Nat) + slotPages x t := by simp
    have hkeep₂ : ∀ y ∈ (argv : Multiset Nat) + slotPages x t,
        (k₁.setPage pg ((k₁.cell pg).patch 0 bytes)).cell y = k.cell y := fun y hy => by
      rw [← hkeep y hy]
      exact Function.update_of_ne (hnew y hy) ..
    exact ih (pg :: argv) (s :: strs)
      ⟨hl.pagetable, hl.trapframe, hl.rep.frame fun y hy => hkeep₂ y (Multiset.mem_add.mpr
        (.inr (Multiset.mem_add.mpr (.inl (Multiset.mem_add.mpr (.inl hy)))))), hl.name, hl.space⟩
      (hown₁.moves (Kmem.moves_setPage hpg _))
      (.cons hat (ArgAt.frame_all hargs fun a ha => hkeep₂ a (Multiset.mem_add.mpr
        (.inl (Multiset.mem_coe.mpr ha))))) h

/-- The call of `exec` in `sys_exec`. -/
theorem fetchArgs_calls {S : KSys np} {p : Fin np} {argv : List Nat} {k : Kmem}
    (h : Lives M S.kmem.cell (S.proc p) t pt tf) (hst : (S.proc p).state ≠ .unused)
    (hown : Custody M.IsPage S.kmem.toStore (slotPages (S.proc p) t))
    (hfetch : fetchArgs pt (S.proc p).sz uargv MAXARG S.kmem [] = (true, argv, k)) :
    ∃ strs, Calls M (S.setMem k) p t pt tf argv.reverse strs := by
  have hlen := fetchArgs_length hfetch
  obtain ⟨hl, hown', strs, hargs⟩ := fetchArgs_args [] [] h
    (by simpa using hown) .nil hfetch
  refine ⟨strs.reverse, hl, hst, ?_, forall₂_reverse_iff.mpr hargs, ?_⟩
  · rw [Multiset.coe_reverse]
    exact hown'
  · grind

end Fetch

/-! ## The arguments and the stack page -/

/-- Below the stack page the image of `p` is the one it gets without
arguments, with a guard page that is empty and not the user's. -/
structure SameBelowStack (S₀ S : KSys np) (p : Fin np) (pt : Nat) : Prop where
  size : (S₀.proc p).sz = (S.proc p).sz
  bytes : ∀ va < (S.proc p).sz - PGSIZE, userByte S p va = userByte S₀ p va
  guard : ∀ va, (S.proc p).sz - 2 * PGSIZE ≤ va → va < (S.proc p).sz - PGSIZE →
    ¬UserAt S.kmem pt va ∧ userByte S p va = 0

section Survive

variable {M : Machine} {S S' S₀ : KSys np} {p : Fin np} {t t' : Table} {pt pt' tf sz : Nat}
  {argv : List Nat} {strs strs₀ : List (List Byte)} {k' : Kmem} {path content : List Byte}
  {namei : List Byte → Option (List Byte)} {g g₀ : Nat → Byte}

theorem Committed.sameBelow (h : Committed M S p tf path content strs S' t' pt' sz g)
    (h₀ : Committed M S p tf path content strs₀ S₀ t' pt' sz g₀)
    (hr : Ready M tf S.kmem content k' t' pt' sz) : SameBelowStack S₀ S' p pt' := by
  have hsz : (S'.proc p).sz = (npg sz + 1 + 1) * 4096 := by rw [h.proc]
  have hsz₀ : (S₀.proc p).sz = (npg sz + 1 + 1) * 4096 := by rw [h₀.proc]
  have hbase : (S'.proc p).sz - PGSIZE = (npg sz + 1) * 4096 := by grind
  have hguard : (S'.proc p).sz - 2 * PGSIZE = npg sz * 4096 := by grind
  have hin : ∀ {va}, va < (npg sz + 1) * 4096 → va < (npg sz + 1 + 1) * 4096 := fun hva =>
    lt_of_lt_of_le hva (mul_le_mul_right _ (le_succ _))
  have hpt : (S'.proc p).pagetable = some pt' := by rw [h.proc]
  have hpt₀ : (S₀.proc p).pagetable = some pt' := by rw [h₀.proc]
  refine ⟨hsz₀.trans hsz.symm, fun va hva => ?_, fun va h1 h2 => ⟨?_, ?_⟩⟩
  · rw [hbase] at hva
    rw [h.holds.userByte hpt (hin hva), h₀.holds.userByte hpt₀ (hin hva), h.below va hva,
      h₀.below va hva]
  · have hvpn : vpn va = npg sz := by
      show va / 4096 = npg sz
      omega
    exact h.holds.not_userAt (hvpn ▸ hr.guard)
  · rw [hbase] at h2
    rw [hguard] at h1
    rw [h.holds.userByte hpt (hin h2), h.below va h2, hr.behind va h1]

/-- Pushing the arguments writes the stack page only. -/
theorem Ready.pushStack_cell (hr : Ready M tf S.kmem content k' t' pt' sz)
    (h : Calls M S p t pt tf argv strs) {y : Nat} (hy : y ≠ PTE2PA (t'.get (npg sz + 1))) :
    (pushStack pt' ((npg sz + 1) * 4096) argv k' ((npg sz + 1 + 1) * 4096)).2.cell y
      = k'.cell y := by
  obtain ⟨hargs, hapart⟩ := h.args_ready hr
  have hout : y ∉ ({PTE2PA (t'.get (npg sz + 1))} : Multiset Nat) := by simpa using hy
  rcases lt_or_ge 4096 (argSize strs) with hfull | hfit
  · obtain ⟨k₁, hrun, hst⟩ := pushStack_full hr.holds hr.stack (succ_pos _) hargs hapart
      h.few.le rfl hfull
    rw [hrun, hst.frame y hout]
  · obtain ⟨k₁, g, hrun, hst, -⟩ := pushStack_fits hr.holds hr.stack hargs hapart h.few.le rfl hfit
    rw [hrun, hst.frame y hout]

/-- **Arguments survive `exec`.** It fails when it would fail without
arguments, or when they take more than a page; otherwise it returns their
number, and the new program finds them. Only the stack page is written
for them. -/
theorem arguments_survive (namei : List Byte → Option (List Byte)) (path : List Byte)
    (h : Calls M S p t pt tf argv strs)
    (hlen : ∀ content, namei path = some content → content.length < 2 ^ 32) :
    ∃ r S', exec M S p namei path argv = .ok (r, S')
      ∧ (r = -1 ↔ (∃ S₀, exec M S p namei path [] = .ok (-1, S₀)) ∨ PGSIZE < argSize strs)
      ∧ (r ≠ -1 → r = strs.length ∧ ∃ pt' sp ptr S₀, FindsArgs S' p strs pt' tf sp ptr
        ∧ exec M S p namei path [] = .ok (0, S₀) ∧ SameBelowStack S₀ S' p pt')
      ∧ ∀ content k' t' pt' sz, namei path = some content →
        Ready M tf S.kmem content k' t' pt' sz → ∀ y ≠ PTE2PA (t'.get (npg sz + 1)),
          (pushStack pt' ((npg sz + 1) * 4096) argv k' ((npg sz + 1 + 1) * 4096)).2.cell y
            = k'.cell y := by
  have hwrites := fun content k' t' pt' sz (_ : namei path = some content)
    (hr : Ready M tf S.kmem content k' t' pt' sz) y hy => hr.pushStack_cell (y := y) h hy
  have hcount : (argv.length : Int) = strs.length := by rw [h.args.length_eq]
  rcases h.exec_cases hlen with hno | ⟨content, k', t', pt', sz, hfile, hr⟩
  · -- a failure that does not depend on the arguments
    obtain ⟨S', hexec⟩ := hno argv
    exact ⟨-1, S', hexec, ⟨fun _ => .inl (hno []), fun _ => rfl⟩, fun hc => absurd rfl hc, hwrites⟩
  obtain ⟨S₀, g₀, hexec₀, hc₀⟩ := hr.exec_fits h.noArgs hfile (by decide)
  rcases lt_or_ge 4096 (argSize strs) with hfull | hfit
  · obtain ⟨S', hexec⟩ := hr.exec_full h hfile hfull
    grind
  · obtain ⟨S', g, hexec, hc⟩ := hr.exec_fits h hfile hfit
    refine ⟨argv.length, S', hexec, ⟨fun hneg => by omega, ?_⟩, fun _ => ⟨hcount, pt', _, _, S₀,
      hc.findsArgs h.lives.trapframe hr.stack hfit, hexec₀, hc.sameBelow hc₀ hr⟩, hwrites⟩
    grind

/-- A program that is called with one argument by the first process. -/
theorem arguments_survive_one : ∃ (S S' : KSys 2) (argv : List Nat) (s : List Byte)
    (pt tf sp : Nat) (ptr : Nat → Nat),
    exec smallMachine S 0 (fun _ => some (smallElf 120)) [] argv = .ok (1, S')
      ∧ FindsArgs S' 0 [s] pt tf sp ptr := by
  obtain ⟨S₀, S, hboot, hrun, hP⟩ := bootRun_spec
    [(.userinit (leBytes 8 16 ++ leBytes 8 0 ++ [97, 98, 0]), [])]
    (fun S => (S.proc 0).pagetable.any fun pt => (S.proc 0).trapframe.any fun tf =>
      match fetchArgs pt (S.proc 0).sz 0 MAXARG S.kmem [] with
      | (true, argv, k) => decide (argv.length = 1)
          && (execImage smallMachine k tf (smallElf 120) argv.reverse).toOption.any (·.1.isSome)
      | _ => false)
    (by decide +kernel)
  obtain ⟨pt, hpt, hP⟩ := (Option.any_eq_true ..).mp hP
  obtain ⟨tf, htf, hP⟩ := (Option.any_eq_true ..).mp hP
  rcases hfetch : fetchArgs pt (S.proc 0).sz 0 MAXARG S.kmem [] with ⟨_ | _, argv, k⟩
  · simp [hfetch] at hP
  simp only [hfetch, Bool.and_eq_true, decide_eq_true_eq] at hP
  obtain ⟨hone, himg⟩ := hP
  rcases hrun' : execImage smallMachine k tf (smallElf 120) argv.reverse with e | ⟨o, k'⟩
  · rw [hrun'] at himg
    cases himg
  rw [hrun'] at himg
  -- the state is one in which the process lives
  obtain ⟨g, hi, -⟩ := run_sound hboot hrun
  rcases hi.slot 0 with hv | ⟨hst, pt', tf', hl⟩
  · rw [hv.pagetable] at hpt
    cases hpt
  obtain rfl : pt = pt' := some.inj (hpt.symm.trans hl.pagetable)
  obtain rfl : tf = tf' := some.inj (htf.symm.trans hl.trapframe)
  obtain ⟨strs, hcalls⟩ := fetchArgs_calls hl hst (hi.slot_owned 0) hfetch
  have hlen : strs.length = 1 := by
    rw [← hcalls.args.length_eq, length_reverse, hone]
  obtain ⟨s, rfl⟩ := length_eq_one_iff.mp hlen
  obtain ⟨r, S', hexec, -, hfound, -⟩ := arguments_survive (fun _ => some (smallElf 120)) [] hcalls
    fun content hc => by
      rw [← some.inj hc]
      decide +kernel
  have hsome : o.isSome = true := himg
  have hr : r = argv.reverse.length := exec_of_image hcalls (fun _ => some (smallElf 120)) [] rfl
    hrun' hsome hexec
  obtain ⟨rfl, pt'', sp, ptr, -, hargs, -⟩ := hfound (by omega)
  exact ⟨S.setMem k, S', argv.reverse, s, pt'', tf, sp, ptr, hexec, hargs⟩

end Survive

end Xv6.Vm
