import Xv6.ExecWords
import Xv6.VmImage
import Xv6.VmReshape

/-!
# Loading a program

`exec` up to its commit: whatever the file holds, it ends with a whole
address space of the size it returns, or with everything it allocated
given back, and it does not panic. The loops of the code end with the
same, and `ustack` is large enough for the arguments of a system call.
-/

namespace Xv6.Vm

open Transfer Radix Ends Nat
open ByteVec (Byte)

section Load

variable {M : Machine} {k k' : Kmem} {t : Table} {pt tf n va sz : Nat} {content : List Byte}

theorem isPage_ne_zero {pa : Nat} (h : M.IsPage pa) : pa ≠ 0 := by
  have := h.2.1
  have := M.kernbase_lt
  have := M.etext_le
  omega

/-- An address below the size is mapped for the user. -/
theorem Space.walkaddr_ne (hs : Space M t tf n) (hall : AllUser t n) (hrep : Rep k.cell t)
    (hown : Custody M.IsPage k.toStore (spacePages t n)) (hname : t.name = some pt)
    (hva : va < n * 4096) : walkaddr k pt va ≠ 0 := by
  have hle : n ≤ 2 ^ 26 - 2 := hs.user.le
  have hkey : vpn va < n := Nat.div_lt_of_lt_mul (by show va < 4096 * n; omega)
  have hvalid : pteHas (t.get (vpn va)) PTE_V = true := by
    rw [pteHas_v]
    exact decide_eq_true (hs.user.leaf _ hkey).1
  rw [walkaddr_eq hrep (fun x hx => hown.left.ok_owned hx) hname,
    if_pos ⟨show va < 2 ^ 38 by omega, hvalid, hall _ hkey⟩]
  exact isPage_ne_zero (hown.right.ok_owned (mem_leafPages.mpr ⟨_, zero_le _, by omega, rfl⟩))

/-- `loadseg` finds every page of the segment. -/
theorem loadsegLoop_ok (hs : Space M t tf n) (hall : AllUser t n) (hname : t.name = some pt)
    (offset : Nat) (hend : va + sz ≤ n * 4096) {rounds : Nat} :
    ∀ {k : Kmem} {i : Nat}, Rep k.cell t → Custody M.IsPage k.toStore (spacePages t n) →
    i + rounds * 4096 < sz + 4096 →
    ∃ done k', loadsegLoop pt va content offset sz rounds k i = .ok (done, k')
      ∧ Stores k (leafPages t 0 n) k' := by
  have hle : n ≤ 2 ^ 26 - 2 := hs.user.le
  induction rounds with
  | zero =>
    intro k i _ _ _
    exact ⟨true, k, rfl, .refl ..⟩
  | succ rounds ih =>
    intro k i hrep hown hi
    have hmod : (va + i) % 2 ^ 64 = va + i := mod_eq_of_lt (by omega)
    have hne := hs.walkaddr_ne hall hrep hown hname (show va + i < n * 4096 by omega)
    have hmem := hs.walkaddr_mem hrep (fun x hx => hown.left.ok_owned hx) hname hne
    unfold loadsegLoop
    simp only [hmod, hne, if_false]
    generalize (if sz - i < PGSIZE then sz - i else PGSIZE) = m
    generalize readi content ((offset + i) % 2 ^ 32) m = data
    have hst := Stores.setPage (k := k) hmem ((k.cell (walkaddr k pt (va + i))).patch 0 data)
    split
    · exact ⟨false, _, rfl, hst⟩
    · obtain ⟨done, k', hrun, hst'⟩ := ih (i := i + PGSIZE) (hst.rep hrep hown)
        (hown.moves (hst.moves.add_left _)) (by show i + 4096 + rounds * 4096 < _; omega)
      exact ⟨done, k', hrun, hst.trans hst'⟩

theorem loadseg_ok (content : List Byte) (va sz : Nat) (hs : Space M t tf n) (hall : AllUser t n) (hrep : Rep k.cell t)
    (hown : Custody M.IsPage k.toStore (spacePages t n)) (hname : t.name = some pt) (offset : Nat)
    (hend : va + sz ≤ n * 4096) :
    ∃ done k', loadseg k pt va content offset sz = .ok (done, k')
      ∧ Stores k (leafPages t 0 n) k' :=
  loadsegLoop_ok hs hall hname offset hend hrep hown (by
    show 0 + (sz + 4095) / 4096 * 4096 < _
    omega)

/-- A segment inside the mapped pages ends before the counter wraps
around. -/
theorem loadsegWhile_of_count {offset m fuel : Nat} (hcount : n + m < 2 ^ 20)
    (hend : va + sz ≤ n * 4096) (hfuel : 2 ^ 20 ≤ fuel) :
    loadsegWhile pt va content offset sz fuel k 0 = panics (loadseg k pt va content offset sz) := by
  rw [loadseg, loadsegWhile_eq va content offset (by omega) fuel, Nat.sub_zero]
  show (sz - 0 + 4096 - 1) / 4096 < fuel
  omega

theorem field_lt (bs : List Byte) (off size : Nat) : field bs off size < 256 ^ size :=
  lt_of_lt_of_le (ByteVec.leNat_lt _)
    (Nat.pow_le_pow_right (by decide) (List.length_take_le ..))

/-- The program headers are loaded one by one. -/
theorem loadLoop_ok (content : List Byte) (rounds : Nat) :
    ∀ {k : Kmem} {t : Table} (off sz : Nat), Rep k.cell t →
    Custody M.IsPage k.toStore (spacePages t (npg sz)) → t.name = some pt →
    Space M t tf (npg sz) → AllUser t (npg sz) →
    ∃ done sz' k' t', loadLoop M pt content rounds k off sz = .ok (done, sz', k')
      ∧ Reshapes M tf k t (npg sz) k' t' (npg sz')
      ∧ ∀ fuel, 2 ^ 20 ≤ fuel →
        loadWords M fuel pt content rounds k off sz = .ok (done, sz', k') := by
  induction rounds with
  | zero =>
    intro k t off sz hrep _ _ hs _
    exact ⟨true, sz, k, t, rfl, .refl hrep hs, fun _ _ => rfl⟩
  | succ rounds ih =>
    intro k t off sz hrep hown hname hs hall
    have hcount := Space.count hname hown
    unfold loadLoop loadWords
    simp only
    generalize readi content (off % 2 ^ 32) proghdrSize = bytes
    have hvaddr : (Proghdr.decode bytes).vaddr < 2 ^ 64 := field_lt bytes 16 8
    have hmemsz : (Proghdr.decode bytes).memsz < 2 ^ 64 := field_lt bytes 40 8
    generalize Proghdr.decode bytes = ph at hvaddr hmemsz ⊢
    have hstop : Reshapes M tf k t (npg sz) k t (npg sz) := .refl hrep hs
    split
    · exact ⟨false, sz, k, t, rfl, hstop, fun _ _ => rfl⟩
    split
    · exact ih _ _ hrep hown hname hs hall
    split
    · exact ⟨false, sz, k, t, rfl, hstop, fun _ _ => rfl⟩
    split
    · exact ⟨false, sz, k, t, rfl, hstop, fun _ _ => rfl⟩
    rename_i hsizes hwrap
    obtain ⟨r, k₁, t₁, hrun₁, hre₁, hr, hall₁⟩ := uvmalloc_reshapes sz
      ((ph.vaddr + ph.memsz) % 2 ^ 64) hrep hown hname hs
    have hwords : ∀ fuel, 2 ^ 20 ≤ fuel → uvmallocWords M fuel k pt sz
        ((ph.vaddr + ph.memsz) % 2 ^ 64) = .ok (r, k₁) := fun fuel hfuel => by
      rw [uvmallocWords_eq M (by omega), hrun₁]
      rfl
    rw [hrun₁, ok_bind]
    by_cases hzero : r = 0
    · subst hzero
      refine ⟨false, sz, k₁, t₁, rfl, hre₁, fun fuel hfuel => ?_⟩
      rw [hwords fuel hfuel]
      rfl
    · have hgrown : grown sz r = r := if_neg hzero
      rw [hgrown] at hre₁ hall₁
      simp only [hzero, if_false]
      split
      · refine ⟨false, r, k₁, t₁, rfl, hre₁, fun fuel hfuel => ?_⟩
        simp only [hwords fuel hfuel, ok_bind, hzero, if_false]
      · have hown₁ := hown.moves hre₁.moves
        have hname₁ := hre₁.name.trans hname
        have hr' := hr hzero
        have hend : ph.vaddr + ph.filesz % 2 ^ 32 ≤ npg r * 4096 := by
          have : ph.filesz % 2 ^ 32 ≤ ph.filesz := mod_le ..
          have hnpg : r ≤ npg r * 4096 := by
            show r ≤ (r + 4095) / 4096 * 4096
            omega
          omega
        obtain ⟨done, k₂, hrun₂, hst⟩ := loadseg_ok content ph.vaddr
          (ph.filesz % 2 ^ 32) hre₁.space (hall₁ hall) hre₁.rep hown₁ hname₁
          (ph.off % 2 ^ 32) hend
        have hre₂ := hst.reshapes hre₁.rep hown₁ hre₁.space
        have hseg : ∀ fuel, 2 ^ 20 ≤ fuel → loadsegWhile pt ph.vaddr content (ph.off % 2 ^ 32)
            (ph.filesz % 2 ^ 32) fuel k₁ 0 = .ok (done, k₂) := fun fuel hfuel => by
          rw [loadsegWhile_of_count (Space.count hname₁ hown₁) hend hfuel, hrun₂]
          rfl
        rw [hrun₂, ok_bind]
        cases done with
        | false =>
          refine ⟨false, r, k₂, t₁, rfl, hre₁.trans hre₂, fun fuel hfuel => ?_⟩
          simp only [hwords fuel hfuel, hseg fuel hfuel, ok_bind, hzero, if_false,
            Bool.false_eq_true]
        | true =>
          obtain ⟨done, sz', k', t', hrun', hre', hfuels⟩ := ih (off + proghdrSize) r hre₂.rep
            (hown₁.moves hre₂.moves) hname₁ hre₁.space (hall₁ hall)
          refine ⟨done, sz', k', t', hrun', hre₁.trans (hre₂.trans hre'), fun fuel hfuel => ?_⟩
          simp only [hwords fuel hfuel, hseg fuel hfuel, ok_bind, hzero, if_false, if_true]
          exact hfuels fuel hfuel

end Load

/-! ## The stack -/

section Stack

variable {M : Machine} {k k' : Kmem} {t : Table} {pt tf n sz : Nat}

theorem push_stores (hs : Space M t tf n) (hname : t.name = some pt) (hrep : Rep k.cell t)
    (hown : Custody M.IsPage k.toStore (spacePages t n)) (base sp m : Nat) (bytes : List Byte) :
    Stores k (leafPages t 0 n) (push pt base k sp m bytes).2 := by
  unfold push
  generalize pushDown sp m = sp'
  split
  · exact .refl ..
  have hst := copyout_stores sp' hs hname hrep hown bytes
  split
  · rename_i k₁ he
    rw [he] at hst
    exact hst
  · rename_i k₁ he
    rw [he] at hst
    exact hst

theorem pushArgs_stores (hs : Space M t tf n) (hname : t.name = some pt) (base : Nat)
    (argv : List Nat) : ∀ {k : Kmem} (sp : Nat) (ustack : List Nat), Rep k.cell t →
    Custody M.IsPage k.toStore (spacePages t n) →
    Stores k (leafPages t 0 n) (pushArgs (pushArg pt base) argv k sp ustack).2 := by
  induction argv with
  | nil =>
    intro k sp ustack _ _
    exact .refl ..
  | cons a argv ih =>
    intro k sp ustack hrep hown
    have hst : Stores k (leafPages t 0 n) (pushArg pt base k sp a).2 :=
      push_stores hs hname hrep hown base sp _ _
    unfold pushArgs
    split
    · exact .refl ..
    split
    · rename_i k₁ he
      rw [he] at hst
      exact hst
    · rename_i sp₁ k₁ he
      rw [he] at hst
      exact hst.trans (ih _ _ (hst.rep hrep hown) (hown.moves (hst.moves.add_left _)))

theorem pushStack_stores (hs : Space M t tf n) (hname : t.name = some pt) (hrep : Rep k.cell t)
    (hown : Custody M.IsPage k.toStore (spacePages t n)) (base : Nat) (argv : List Nat) (sp : Nat) :
    Stores k (leafPages t 0 n) (pushStack pt base argv k sp).2 := by
  have hst := pushArgs_stores hs hname base argv sp [] hrep hown
  unfold pushStack
  split
  · rename_i k₁ he
    rw [he] at hst
    exact hst
  · rename_i sp₁ ustack k₁ he
    rw [he] at hst
    exact hst.trans (push_stores hs hname (hst.rep hrep hown)
      (hown.moves (hst.moves.add_left _)) base sp₁ _ _)

/-- What `exec` is left with: an image of its own, or nothing. -/
def Loaded (M : Machine) (tf : Nat) (k : Kmem) (A : Multiset Nat) (k' : Kmem) (r : Option Image) :
    Prop :=
  match r with
  | none => Moves k.toStore A k'.toStore 0
  | some img => ∃ t, Rep k'.cell t ∧ t.name = some img.pagetable ∧ Space M t tf (npg img.sz)
      ∧ Moves k.toStore A k'.toStore (spacePages t (npg img.sz))

theorem Loaded.of_moves {A B : Multiset Nat} {k₀ : Kmem} {r : Option Image}
    (hm : Moves k₀.toStore B k.toStore A) (h : Loaded M tf k A k' r) : Loaded M tf k₀ B k' r := by
  cases r with
  | none => exact hm.trans h
  | some img =>
    obtain ⟨t, hrep, hname, hs, hm'⟩ := h
    exact ⟨t, hrep, hname, hs, hm.trans hm'⟩

theorem size_lt_of_npg (sz : Nat) (h : npg sz < 2 ^ 20) : sz < 2 ^ 32 := by
  have h' : (sz + 4095) / 4096 < 2 ^ 20 := h
  omega

theorem execBad_ok (hrep : Rep k.cell t) (hown : Custody M.IsPage k.toStore (spacePages t (npg sz)))
    (hname : t.name = some pt) (hs : Space M t tf (npg sz)) :
    ∃ k', execBad M k pt sz = .ok (none, k')
      ∧ Loaded M tf k (spacePages t (npg sz)) k' none := by
  have hcount := Space.count hname hown
  have hsz := size_lt_of_npg sz (by omega)
  obtain ⟨k', hrun, hm⟩ := procFreepagetable_ok _ (by omega) hrep hown hname hs
  refine ⟨k', ?_, hm⟩
  rw [execBad, hrun, ok_bind]

theorem execStack_ok (hrep : Rep k.cell t) (hown : Custody M.IsPage k.toStore (spacePages t (npg sz)))
    (hname : t.name = some pt) (hs : Space M t tf (npg sz)) (entry : Nat) (argv : List Nat) :
    ∃ r k', execStack M k pt sz entry argv = .ok (r, k')
      ∧ Loaded M tf k (spacePages t (npg sz)) k' r
      ∧ ∀ fuel ustack, 2 ^ 20 ≤ fuel → argv.length < MAXARG →
        execStackWords M fuel ustack k pt sz entry argv = .ok (r, k') := by
  have hcount := Space.count hname hown
  have hsz := size_lt_of_npg sz (by omega)
  have hround : PGROUNDUP sz = npg sz * 4096 := pgroundup_npg (by omega)
  have hnpg : npg (npg sz * 4096) = npg sz := by
    show (npg sz * 4096 + 4095) / 4096 = npg sz
    omega
  unfold execStack execStackWords
  simp only [hround]
  obtain ⟨r, k₁, t₁, hrun₁, hre₁, hr, -⟩ := uvmalloc_reshapes (npg sz * 4096)
    (npg sz * 4096 + 2 * PGSIZE) hrep (by rwa [hnpg]) hname (by rwa [hnpg])
  rw [hnpg] at hre₁
  have hown₁ := hown.moves hre₁.moves
  have hname₁ := hre₁.name.trans hname
  have hwords : ∀ fuel, 2 ^ 20 ≤ fuel → uvmallocWords M fuel k pt (npg sz * 4096)
      (npg sz * 4096 + 2 * PGSIZE) = .ok (r, k₁) := fun fuel hfuel => by
    rw [uvmallocWords_eq M (by omega), hrun₁]
    rfl
  rw [hrun₁, ok_bind]
  by_cases hzero : r = 0
  · subst hzero
    obtain ⟨k', hrun', hl⟩ := execBad_ok hre₁.rep hown₁ hname₁ hre₁.space
    refine ⟨none, k', ?_, hl.of_moves hre₁.moves, fun fuel ustack hfuel _ => ?_⟩
    · rw [if_pos rfl]
      exact hrun'
    · simp only [hwords fuel hfuel, ok_bind, if_true]
      exact congrArg panics hrun'
  · have hgrown : grown (npg sz * 4096) r = r := if_neg hzero
    rw [hgrown] at hre₁ hown₁
    have hr' : r = npg sz * 4096 + 2 * 4096 :=
      (hr hzero).trans (max_eq_right (Nat.le_add_right ..))
    have hpages : npg r = npg sz + 2 := by
      show (r + 4095) / 4096 = npg sz + 2
      omega
    have hguard : r - 2 * PGSIZE = npg sz * 4096 := by
      show r - 2 * 4096 = _
      omega
    obtain ⟨k₂, t₂, hrun₂, hre₂, -⟩ := uvmclear_reshapes (npg sz) hre₁.rep hown₁ hname₁
      hre₁.space (by omega)
    have hown₂ := hown₁.moves hre₂.moves
    have hname₂ := hre₂.name.trans hname₁
    simp only [hzero, if_false, hguard, hrun₂, ok_bind]
    have hst := pushStack_stores hre₂.space hname₂ hre₂.rep hown₂ (r - PGSIZE) argv r
    split
    · rename_i k₃ he
      rw [he] at hst
      have hre₃ := hst.reshapes hre₂.rep hown₂ hre₂.space
      obtain ⟨k', hrun', hl⟩ := execBad_ok hre₃.rep (hown₂.moves hre₃.moves) hname₂ hre₂.space
      refine ⟨none, k', hrun', hl.of_moves (hre₁.moves.trans (hre₂.moves.trans hre₃.moves)),
        fun fuel ustack hfuel hlen => ?_⟩
      simp only [hwords fuel hfuel, ok_bind, hzero, if_false, hguard, hrun₂, panics_ok,
        pushStackWords_eq _ hlen, he]
      exact congrArg panics hrun'
    · rename_i sp k₃ he
      rw [he] at hst
      have hre₃ := hst.reshapes hre₂.rep hown₂ hre₂.space
      refine ⟨_, k₃, rfl, ⟨t₂, hre₃.rep, hname₂, hre₂.space,
        hre₁.moves.trans (hre₂.moves.trans hre₃.moves)⟩, fun fuel ustack hfuel hlen => ?_⟩
      simp only [hwords fuel hfuel, ok_bind, hzero, if_false, hguard, hrun₂, panics_ok,
        pushStackWords_eq _ hlen, he]

/-- `exec` on any file. -/
theorem execImage_ok (hown : Custody M.IsPage k.toStore 0) (htf : tf < 2 ^ 64) (content : List Byte)
    (argv : List Nat) :
    ∃ r k', execImage M k tf content argv = .ok (r, k') ∧ Loaded M tf k 0 k' r
      ∧ ∀ fuel ustack, 2 ^ 20 ≤ fuel → argv.length < MAXARG →
        execImageWords M fuel ustack k tf content argv = .ok (r, k') := by
  unfold execImage execImageWords
  simp only
  split
  · exact ⟨none, k, rfl, .refl .., fun _ _ _ _ => rfl⟩
  obtain ⟨r, k₁, hrun₁, ⟨rfl, hm⟩ | ⟨pt, t, rfl, hrep, hname, hs, hm⟩⟩ := procPagetable_ok hown htf
  · rw [hrun₁, ok_bind]
    exact ⟨none, k₁, rfl, hm, fun _ _ _ _ => rfl⟩
  · have hm₁ : Moves k.toStore 0 k₁.toStore (spacePages t (npg 0)) := hm.of_eq rfl (add_zero _).symm
    have hown₁ := hown.moves hm₁
    obtain ⟨done, sz, k₂, t₂, hrun₂, hre₂, hload⟩ := loadLoop_ok content
      (Elfhdr.decode (readi content 0 elfhdrSize)).phnum
      (Elfhdr.decode (readi content 0 elfhdrSize)).phoff 0 hrep hown₁ hname hs
      fun key hkey => absurd hkey (not_lt_zero key)
    have hm₂ := hm₁.trans hre₂.moves
    have hown₂ := hown.moves hm₂
    have hname₂ := hre₂.name.trans hname
    rw [hrun₁, ok_bind]
    simp only [hrun₂, ok_bind]
    cases done with
    | true =>
      obtain ⟨r, k', hrun', hl, hwords⟩ := execStack_ok hre₂.rep hown₂ hname₂ hre₂.space
        (Elfhdr.decode (readi content 0 elfhdrSize)).entry argv
      refine ⟨r, k', hrun', hl.of_moves hm₂, fun fuel ustack hfuel hlen => ?_⟩
      simp_all [panics_ok, ok_bind, hload fuel hfuel, if_true]
    | false =>
      obtain ⟨k', hrun', hl⟩ := execBad_ok hre₂.rep hown₂ hname₂ hre₂.space
      refine ⟨none, k', hrun', hl.of_moves hm₂, fun fuel ustack hfuel _ => ?_⟩
      simp_all [panics_ok, ok_bind, hload fuel hfuel, Bool.false_eq_true, if_false]

end Stack

end Xv6.Vm
