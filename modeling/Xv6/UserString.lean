import Xv6.UserMem

/-!
# Strings from user memory

`copyinstr` has two loops: over pages, and over the bytes of a page until
a 0 or until `max` is used up. Both together take from the stream of user
bytes (`userSource`) those up to its first 0 (`upToNul`), so that a string
comes whole, with its 0, or is refused.
-/

namespace Xv6.Vm

open List Nat

open ByteVec (Byte)
open StepSystem

/-- The bytes up to the first 0, with that 0. -/
def upToNul : List Byte → List Byte
  | [] => []
  | b :: bs => if b = 0 then [0] else b :: upToNul bs

section UpToNul

variable {as bs : List Byte}

theorem upToNul_append_of_mem (h : 0 ∈ as) : upToNul (as ++ bs) = upToNul as := by
  induction as with
  | nil => cases h
  | cons a as ih =>
    grind [cons_append, upToNul]

theorem upToNul_append_of_notMem (h : 0 ∉ as) : upToNul (as ++ bs) = as ++ upToNul bs := by
  induction as with
  | nil => rfl
  | cons a as ih =>
    rw [mem_cons, not_or] at h
    rw [cons_append, upToNul, if_neg (Ne.symm h.1), ih h.2, cons_append]

theorem upToNul_of_mem (h : 0 ∈ as) : upToNul as = as.takeWhile (· ≠ 0) ++ [0] := by
  induction as with
  | nil => cases h
  | cons a as ih =>
    rcases eq_or_ne a 0 with rfl | ha
    · simp [upToNul]
    · have htake : (a :: as).takeWhile (· ≠ 0) = a :: as.takeWhile (· ≠ 0) :=
        takeWhile_cons_of_pos (decide_eq_true ha)
      rw [htake, upToNul, if_neg ha, ih ((mem_cons.mp h).resolve_left (Ne.symm ha)),
        cons_append]

theorem upToNul_of_notMem (h : 0 ∉ as) : upToNul as = as := by
  have happend : upToNul (as ++ []) = as ++ upToNul [] := upToNul_append_of_notMem h
  simpa [upToNul] using happend

theorem upToNul_length_le (as : List Byte) : (upToNul as).length ≤ as.length := by
  induction as with
  | nil => simp [upToNul]
  | cons a as ih =>
    simp only [upToNul]
    split <;> simp [ih]

end UpToNul

/-! ## The two loops -/

/-- The inner loop of `copyinstr`, over `n` bytes from offset `p` of a
page: what it stores, `got_null`, and what is left of `max`. -/
def copyinstrPage (page : Page) : Nat → Nat → Nat → List Byte × Bool × Nat
  | 0, _, max => ([], false, max)
  | n + 1, p, max =>
      if page.byte p = 0 then ([0], true, max)
      else
        let (bytes, gotNull, max) := copyinstrPage page n (p + 1) (max - 1)
        (page.byte p :: bytes, gotNull, max)

/-- The outer loop around it. -/
def copyinstrPages (k : Kmem) (pagetable : Nat) : Nat → Nat → Nat → List Byte → Bool × List Byte
  | _, _, 0, dst => (false, dst)
  | 0, _, _ + 1, dst => (false, dst)
  | fuel + 1, srcva, max, dst =>
      let va0 := PGROUNDDOWN srcva
      let pa0 := walkaddr k pagetable va0
      if pa0 = 0 then (false, dst)
      else
        let n := min (PGSIZE - (srcva - va0)) max
        let (bytes, gotNull, max) := copyinstrPage (k.cell pa0) n (srcva - va0) max
        if gotNull then (true, dst ++ bytes)
        else copyinstrPages k pagetable fuel ((va0 + PGSIZE) % 2 ^ 64) max (dst ++ bytes)

section Loops

variable {k : Kmem} {pagetable : Nat}

theorem slice_succ (v : Page) (off n : Nat) :
    v.slice off (n + 1) = v.byte off :: v.slice (off + 1) n := by
  simp [ByteVec.slice, range_succ_eq_map, Function.comp_def, add_assoc, add_comm 1]

/-- What the inner loop stores, and that it has used all of `n` without a
0. -/
theorem copyinstrPage_eq (page : Page) (n : Nat) : ∀ p max,
    (copyinstrPage page n p max).1 = upToNul (page.slice p n)
      ∧ (copyinstrPage page n p max).2.1 = decide (0 ∈ page.slice p n)
      ∧ (0 ∉ page.slice p n → (copyinstrPage page n p max).2.2 = max - n) := by
  induction n with
  | zero =>
    intro p max
    simp [copyinstrPage, ByteVec.slice, upToNul]
  | succ n ih =>
    grind [slice_succ, copyinstrPage, upToNul]

/-- The loop that the model of `sys_exec` uses is the one with the inner
loop written out. -/
theorem copyinstrPages_eq (fuel : Nat) : ∀ srcva max dst,
    copyinstrPages k pagetable fuel srcva max dst = copyinstrLoop k pagetable fuel srcva max dst := by
  induction fuel with
  | zero =>
    intro srcva max dst
    cases max <;> rfl
  | succ fuel ih =>
    intro srcva max dst
    cases max with
    | zero => rfl
    | succ max =>
      obtain ⟨hbytes, hnull, hmax⟩ := copyinstrPage_eq
        (k.cell (walkaddr k pagetable (PGROUNDDOWN srcva)))
        (min (PGSIZE - (srcva - PGROUNDDOWN srcva)) (max + 1)) (srcva - PGROUNDDOWN srcva) (max + 1)
      simp only [copyinstrPages, copyinstrLoop, hbytes, hnull, decide_eq_true_eq]
      split
      · rfl
      · split
        · rename_i h
          rw [upToNul_of_mem h, append_assoc]
        · rename_i h
          rw [hmax h, upToNul_of_notMem h, ih]

/-- **`copyinstr` takes the user bytes up to the first 0**, of those that
can be read and are at most `max`. -/
theorem copyinstrLoop_eq (fuel : Nat) : ∀ {srcva max : Nat} (dst : List Byte), max ≤ fuel →
    srcva < 2 ^ 64 →
    copyinstrLoop k pagetable fuel srcva max dst
      = (decide (0 ∈ copyBytes (userSource k pagetable srcva) 0 max),
        dst ++ upToNul (copyBytes (userSource k pagetable srcva) 0 max)) := by
  induction fuel with
  | zero =>
    simp_all [copyinstrLoop, copyBytes, upToNul]
  | succ fuel ih =>
    intro srcva max dst hmax hva
    cases max with
    | zero => simp [copyinstrLoop, copyBytes, upToNul]
    | succ max =>
      have hdown : srcva - PGROUNDDOWN srcva < PGSIZE := by
        show srcva - srcva / 4096 * 4096 < 4096
        omega
      simp only [copyinstrLoop]
      split
      · rename_i h0
        simp [copyBytes_unmapped hva h0, upToNul]
      · rename_i h0
        rw [copyBytes_page hva h0]
        split
        · rename_i h
          rw [upToNul_append_of_mem h, upToNul_of_mem h, append_assoc,
            decide_eq_true (mem_append_left _ h)]
        · rename_i h
          rw [ih _ (by omega) (mod_lt _ (by decide)), upToNul_append_of_notMem h,
            append_assoc]
          simp only [mem_append, or_iff_right h]

theorem copyinstr_eq {srcva : Nat} (hva : srcva < 2 ^ 64) (max : Nat) :
    copyinstr k pagetable srcva max
      = (decide (0 ∈ copyBytes (userSource k pagetable srcva) 0 max),
        upToNul (copyBytes (userSource k pagetable srcva) 0 max)) := by
  rw [copyinstr, copyinstrLoop_eq max [] (le_refl _) hva, nil_append]

end Loops

/-! ## Whole strings -/

/-- A string of `j` bytes and its 0, all of which the user may access. -/
structure StringAt (k : Kmem) (pagetable srcva j : Nat) : Prop where
  user : ∀ i ≤ j, UserAt k pagetable (srcva + i)
  chars : ∀ i < j, physMem k (physAddr k pagetable (srcva + i)) ≠ 0
  nul : physMem k (physAddr k pagetable (srcva + j)) = 0

/-- The bytes up to a first 0 at a known place. -/
theorem upToNul_map {f : Nat → Byte} {j m : Nat} (hj : j < m) (hchars : ∀ i < j, f i ≠ 0)
    (hnul : f j = 0) : upToNul ((range m).map f) = (range (j + 1)).map f := by
  obtain ⟨d, rfl⟩ := Nat.exists_eq_add_of_lt hj
  have hno : (0 : Byte) ∉ (range j).map f := by grind
  have hrest : upToNul (((range (d + 1)).map (j + ·)).map f) = [0] := by
    rw [range_succ_eq_map, map_cons, map_cons, upToNul, add_zero, if_pos hnul]
  rw [add_assoc, range_add, map_append, upToNul_append_of_notMem hno, hrest,
    range_succ, map_append, map_singleton, hnul]

section Whole

variable {k : Kmem} {pagetable srcva j : Nat}

theorem NonzeroPages.copyinstr_of_string (ht : NonzeroPages k pagetable) (hva : srcva < 2 ^ 64)
    {max : Nat} (h : StringAt k pagetable srcva j) (hj : j < max) :
    copyinstr k pagetable srcva max = (true, userBytes k pagetable srcva (j + 1)) := by
  obtain ⟨m, hle, hin, hout⟩ := exists_stop (fun i => UserAt k pagetable (srcva + i)) max
  -- the readable bytes reach beyond the 0
  have hjm : j < m := by
    by_contra hge
    exact hout (by omega) (h.user m (by omega))
  rw [copyinstr_eq hva, ht.copyBytes_user hva hle hin hout, userBytes, upToNul_map hjm h.chars h.nul]
  have hmem : (0 : Byte) ∈ (range m).map fun i => physMem k (physAddr k pagetable (srcva + i)) :=
    mem_map.mpr ⟨j, mem_range.mpr hjm, h.nul⟩
  rw [decide_eq_true hmem, userBytes]

theorem NonzeroPages.string_of_copyinstr (ht : NonzeroPages k pagetable) (hva : srcva < 2 ^ 64)
    {max : Nat} (h : (copyinstr k pagetable srcva max).1 = true) :
    ∃ j < max, StringAt k pagetable srcva j := by
  obtain ⟨m, hle, hin, hout⟩ := exists_stop (fun i => UserAt k pagetable (srcva + i)) max
  rw [copyinstr_eq hva, ht.copyBytes_user hva hle hin hout, decide_eq_true_iff, userBytes,
    mem_map] at h
  obtain ⟨i, hi, hzero⟩ := h
  have hi := mem_range.mp hi
  -- the first 0
  obtain ⟨j, hji, hchars, hnul⟩ :=
    exists_stop (fun i => physMem k (physAddr k pagetable (srcva + i)) ≠ 0) i
  refine ⟨j, by omega, fun l hl => hin l (by omega), hchars, ?_⟩
  rcases lt_or_eq_of_le hji with hlt | rfl
  · exact not_not.mp (hnul hlt)
  · exact hzero

theorem copyinstr_length_le (hva : srcva < 2 ^ 64) (max : Nat) :
    (copyinstr k pagetable srcva max).2.length ≤ max := by
  rw [copyinstr_eq hva]
  exact (upToNul_length_le _).trans (copyBytes_length_le ..)

end Whole

/-! ## String arguments -/

/-- The length of the string in a buffer. -/
def bufStrlen (buf : List Byte) : Nat := buf.findIdx (· = 0)

/-- `fetchstr` into `buf`; the result with the buffer after it. -/
def fetchstr (k : Kmem) (pagetable addr : Nat) (buf : List Byte) (max : Nat) : Int × List Byte :=
  let (ok, bytes) := copyinstr k pagetable addr max
  let buf := bytes ++ buf.drop bytes.length
  if ok then (bufStrlen buf, buf) else (-1, buf)

/-- The `n`th argument register, saved in the trapframe; `none` for the
panic. -/
def argraw (trapframe : Page) (n : Nat) : Option Nat :=
  if n < 6 then some (trapframe.word 8 (a0Off + 8 * n)) else none

def argstr (k : Kmem) (pagetable : Nat) (trapframe : Page) (n : Nat) (buf : List Byte) (max : Nat) :
    Option (Int × List Byte) :=
  (argraw trapframe n).map fun addr => fetchstr k pagetable addr buf max

section Fetch

variable {k : Kmem} {pagetable addr : Nat}

theorem userBytes_getElem? (k : Kmem) (pagetable addr : Nat) {i n : Nat} (hi : i < n) :
    (userBytes k pagetable addr n)[i]? = some (physMem k (physAddr k pagetable (addr + i))) := by
  simp [userBytes, hi]

/-- The string in a buffer that starts with the bytes of a user string. -/
theorem StringAt.bufStrlen {j : Nat} (h : StringAt k pagetable addr j) (rest : List Byte) :
    bufStrlen (userBytes k pagetable addr (j + 1) ++ rest) = j := by
  have hlen : (userBytes k pagetable addr (j + 1)).length = j + 1 := by simp [userBytes]
  have hget : ∀ i, (hi : i < j + 1) →
      (userBytes k pagetable addr (j + 1) ++ rest)[i]?
        = some (physMem k (physAddr k pagetable (addr + i))) := fun i hi => by
    rw [getElem?_append_left (by omega), userBytes_getElem? k pagetable addr hi]
  have hj : j < (userBytes k pagetable addr (j + 1) ++ rest).length := by
    rw [length_append]
    omega
  refine (findIdx_eq hj).mpr ⟨?_, fun i hi => ?_⟩
  · have := hget j (lt_succ_self j)
    rw [getElem?_eq_getElem hj, Option.some.injEq] at this
    rw [this, h.nul]
    rfl
  · have := hget i (by omega)
    rw [getElem?_eq_getElem (by omega), Option.some.injEq] at this
    rw [this]
    exact decide_eq_false (h.chars i hi)

/-- A successful fetch leaves the string and its 0 in the buffer. -/
theorem NonzeroPages.fetchstr_spec (ht : NonzeroPages k pagetable) (haddr : addr < 2 ^ 64)
    {buf buf' : List Byte} {max : Nat} {r : Int} (hbuf : buf.length = max)
    (h : fetchstr k pagetable addr buf max = (r, buf')) (hr : 0 ≤ r) :
    ∃ j : Nat, r = j ∧ j < max ∧ buf'.length = max ∧ bufStrlen buf' = j ∧ buf'[j]? = some 0
      ∧ StringAt k pagetable addr j := by
  cases hok : (copyinstr k pagetable addr max).1 with
  | false =>
    simp only [fetchstr, hok, Bool.false_eq_true, if_false, Prod.mk.injEq] at h
    omega
  | true =>
    obtain ⟨j, hj, hstr⟩ := ht.string_of_copyinstr haddr hok
    simp only [fetchstr, ht.copyinstr_of_string haddr hstr hj, if_true, Prod.mk.injEq] at h
    obtain ⟨rfl, rfl⟩ := h
    have hlen : (userBytes k pagetable addr (j + 1)).length = j + 1 := by simp [userBytes]
    refine ⟨j, by rw [hstr.bufStrlen], hj, ?_, hstr.bufStrlen _, ?_, hstr⟩
    · grind
    · rw [getElem?_append_left (by omega), userBytes_getElem? k pagetable addr (by omega),
        hstr.nul]

theorem argraw_lt {trapframe : Page} {n : Nat} (h : argraw trapframe n = some addr) :
    addr < 2 ^ 64 := by
  unfold argraw at h
  split at h
  · rw [← Option.some.inj h]
    exact (ByteVec.word_lt trapframe 8 _).trans_eq rfl
  · cases h

/-- `copyinstr` succeeds when there is a string of less than `max` bytes
that the user may access to its 0, which it then copies and nothing else;
otherwise it writes at most `max` bytes. A string argument is then in a
buffer of that size with its 0, and its length is returned. -/
theorem string_whole_or_refused (ht : NonzeroPages k pagetable) :
    (∀ srcva < 2 ^ 64, ∀ max,
      ((copyinstr k pagetable srcva max).1 = true ↔ ∃ j < max, StringAt k pagetable srcva j)
        ∧ (∀ j < max, StringAt k pagetable srcva j →
          (copyinstr k pagetable srcva max).2 = userBytes k pagetable srcva (j + 1))
        ∧ (copyinstr k pagetable srcva max).2.length ≤ max
        ∧ copyinstrPages k pagetable max srcva max [] = copyinstr k pagetable srcva max)
    ∧ ∀ (trapframe : Page) (n max : Nat) (buf buf' : List Byte) (r : Int), buf.length = max →
      argstr k pagetable trapframe n buf max = some (r, buf') → 0 ≤ r →
      ∃ j : Nat, r = j ∧ j < max ∧ buf'.length = max ∧ bufStrlen buf' = j ∧ buf'[j]? = some 0 := by
  refine ⟨fun srcva hva max => ⟨⟨ht.string_of_copyinstr hva, ?_⟩, fun j hj hstr => ?_,
    copyinstr_length_le hva max, copyinstrPages_eq ..⟩, fun trapframe n max buf buf' r hbuf h hr => ?_⟩
  · rintro ⟨j, hj, hstr⟩
    rw [ht.copyinstr_of_string hva hstr hj]
  · rw [ht.copyinstr_of_string hva hstr hj]
  · obtain ⟨addr, haddr, hfetch⟩ := Option.map_eq_some_iff.mp h
    obtain ⟨j, h1, h2, h3, h4, h5, -⟩ := ht.fetchstr_spec (argraw_lt haddr) hbuf hfetch hr
    exact ⟨j, h1, h2, h3, h4, h5⟩

/-- A string of two bytes needs three. -/
theorem string_whole_or_refused_two : ∃ (S : KSys 2) (pt : Nat), (S.proc 0).pagetable = some pt
    ∧ copyinstr S.kmem pt 0 3 = (true, [104, 105, 0])
    ∧ (copyinstr S.kmem pt 0 2).1 = false := by
  obtain ⟨S, S', hboot, hrun, hP⟩ := bootRun_spec [(.userinit [104, 105, 0], [])]
    (fun S => (S.proc 0).pagetable.any fun pt =>
      decide ((∀ i : Nat, i ≤ 2 → UserAt S.kmem pt (0 + i))
        ∧ (∀ i : Nat, i < 2 → physMem S.kmem (physAddr S.kmem pt (0 + i)) ≠ 0)
        ∧ userBytes S.kmem pt 0 3 = [104, 105, 0]))
    (by decide +kernel)
  obtain ⟨pt, hpt, hP⟩ := (Option.any_eq_true ..).mp hP
  obtain ⟨huser, hchars, hbytes⟩ := of_decide_eq_true hP
  have ht := (reachable_userTable hboot hrun hpt).toNonzeroPages
  have hnul : physMem S'.kmem (physAddr S'.kmem pt (0 + 2)) = 0 := by
    have := userBytes_getElem? S'.kmem pt 0 (show 2 < 3 by decide)
    simp_all
  have hstr : StringAt S'.kmem pt 0 2 := ⟨huser, hchars, hnul⟩
  have hspec := (string_whole_or_refused ht).1 0 (by decide)
  refine ⟨S', pt, hpt, Prod.ext ((hspec 3).1.mpr ⟨2, by decide, hstr⟩) ?_, ?_⟩
  · grind
  · refine Bool.eq_false_iff.mpr fun h => ?_
    obtain ⟨j, hj, hshort⟩ := (hspec 2).1.mp h
    exact hchars j hj hshort.nul

/-- A table that maps the page at address 0 for the user. -/
def zeroMapped : Kmem where
  cell pg :=
    if pg = 0x1000 then (ByteVec.fill PGSIZE 0).setWord 8 0 (PA2PTE 0x2000 ||| PTE_V)
    else if pg = 0x2000 then (ByteVec.fill PGSIZE 0).setWord 8 0 (PA2PTE 0x3000 ||| PTE_V)
    else if pg = 0x3000 then (ByteVec.fill PGSIZE 0).setWord 8 0 (mapEntry 0 (PTE_R ||| PTE_U))
    else ByteVec.fill PGSIZE 0
  free := []
  fails := []

/-- The empty string there is refused. -/
theorem copyinstr_zero_page : ∃ (k : Kmem) (pt srcva max : Nat),
    (∃ j < max, StringAt k pt srcva j) ∧ (copyinstr k pt srcva max).1 = false :=
  ⟨zeroMapped, 0x1000, 0, 1, ⟨0, by decide, by decide +kernel, by decide +kernel, by decide +kernel⟩,
    by decide +kernel⟩

end Fetch

end Xv6.Vm
