import Xv6.FsWrite
import Xv6.Vm

/-!
# User memory as a source of bytes

The file system sees a user buffer as a stream of bytes that ends where
a page is not mapped (`Source`). Here that stream is read off the page
table, and the page-by-page loop of `copyin` is shown to move exactly
its bytes before the first unmapped one, for every alignment.
-/

namespace Xv6

open List Nat

open ByteVec (Byte)

section Split

variable {src : Source}

/-- A copy in two parts. -/
theorem copyBytes_add (src : Source) (i n m : Nat) :
    copyBytes src i (n + m) = if (copyBytes src i n).length = n
      then copyBytes src i n ++ copyBytes src (i + n) m else copyBytes src i n := by
  induction n generalizing i with
  | zero => simp [copyBytes]
  | succ n ih =>
    rw [add_right_comm, copyBytes, copyBytes]
    cases src i with
    | none => simp
    | some b =>
      grind

theorem copyBytes_congr {src' : Source} {i i' : Nat} (n : Nat)
    (h : ∀ j < n, src (i + j) = src' (i' + j)) : copyBytes src i n = copyBytes src' i' n := by
  induction n generalizing i i' with
  | zero => rfl
  | succ n ih =>
    rw [copyBytes, copyBytes, show src i = src' i' from h 0 (succ_pos n)]
    cases src' i' with
    | none => rfl
    | some b =>
      grind

theorem copyBytes_some {f : Nat → Byte} {i : Nat} (n : Nat) (h : ∀ j < n, src (i + j) = some (f j)) :
    copyBytes src i n = (range n).map f := by
  refine ext_getElem ?_ fun j h1 h2 => ?_
  · rw [copyBytes_length_eq src fun j hj => by rw [h j hj]; rfl, length_map, length_range]
  · have hget := copyBytes_getD src i n h1
    grind

end Split

namespace Vm

/-- The bytes at `srcva` in the address space of `pagetable`. -/
def userSource (k : Kmem) (pagetable srcva : Nat) : Source := fun j =>
  let va := (srcva + j) % 2 ^ 64
  let pa := walkaddr k pagetable (PGROUNDDOWN va)
  if pa = 0 then none else some ((k.cell pa).byte (va % PGSIZE))

/-- The loop of `copyin` with its destination: the bytes it has stored
there, and whether it succeeds. -/
def copyinTo (k : Kmem) (pagetable : Nat) : Nat → Nat → Nat → Bool × List Byte
  | _, _, 0 => (true, [])
  | 0, _, _ + 1 => (false, [])
  | fuel + 1, srcva, len =>
      let va0 := PGROUNDDOWN srcva
      let pa0 := walkaddr k pagetable va0
      if pa0 = 0 then (false, [])
      else
        let n := min (PGSIZE - (srcva - va0)) len
        let (ok, bytes) := copyinTo k pagetable fuel ((va0 + PGSIZE) % 2 ^ 64) (len - n)
        (ok, (k.cell pa0).slice (srcva - va0) n ++ bytes)

variable {k : Kmem} {pagetable : Nat}

theorem copyinLoop_eq (fuel : Nat) : ∀ srcva len,
    copyinLoop k pagetable fuel srcva len = if (copyinTo k pagetable fuel srcva len).1
      then some (copyinTo k pagetable fuel srcva len).2 else none := by
  induction fuel with
  | zero => intro srcva len; cases len <;> rfl
  | succ fuel ih =>
    intro srcva len
    cases len with
    | zero => rfl
    | succ len =>
      simp only [copyinLoop, copyinTo]
      grind

/-- The bytes of one page. -/
theorem userSource_page {srcva j : Nat} (hva : srcva < 2 ^ 64)
    (hj : j < PGSIZE - (srcva - PGROUNDDOWN srcva)) :
    userSource k pagetable srcva j = if walkaddr k pagetable (PGROUNDDOWN srcva) = 0 then none
      else some ((k.cell (walkaddr k pagetable (PGROUNDDOWN srcva))).byte
        (srcva - PGROUNDDOWN srcva + j)) := by
  have hdown : PGROUNDDOWN srcva = srcva / 4096 * 4096 := rfl
  have hj' : j < 4096 - (srcva - PGROUNDDOWN srcva) := hj
  have hmod : (srcva + j) % 2 ^ 64 = srcva + j := mod_eq_of_lt (by omega)
  have hpage : PGROUNDDOWN (srcva + j) = PGROUNDDOWN srcva := by
    show (srcva + j) / 4096 * 4096 = srcva / 4096 * 4096
    omega
  have hoff : (srcva + j) % PGSIZE = srcva - PGROUNDDOWN srcva + j := by grind
  simp only [userSource, hmod, hpage, hoff]

/-- The bytes after the first page. -/
theorem userSource_next (srcva j : Nat) :
    userSource k pagetable srcva (PGSIZE - (srcva - PGROUNDDOWN srcva) + j)
      = userSource k pagetable ((PGROUNDDOWN srcva + PGSIZE) % 2 ^ 64) j := by
  have hva : (srcva + (PGSIZE - (srcva - PGROUNDDOWN srcva) + j)) % 2 ^ 64
      = ((PGROUNDDOWN srcva + PGSIZE) % 2 ^ 64 + j) % 2 ^ 64 := by
    have hle : PGROUNDDOWN srcva = srcva / 4096 * 4096 := rfl
    rw [mod_add_mod]
    show (srcva + (4096 - (srcva - PGROUNDDOWN srcva) + j)) % 2 ^ 64
      = (PGROUNDDOWN srcva + 4096 + j) % 2 ^ 64
    congr 1
    omega
  simp only [userSource, hva]

theorem copyBytes_unmapped {srcva : Nat} (hva : srcva < 2 ^ 64)
    (h0 : walkaddr k pagetable (PGROUNDDOWN srcva) = 0) (len : Nat) :
    copyBytes (userSource k pagetable srcva) 0 len = [] := by
  have hdown : 0 < PGSIZE - (srcva - PGROUNDDOWN srcva) := by
    show 0 < 4096 - (srcva - srcva / 4096 * 4096)
    omega
  have hsrc : userSource k pagetable srcva 0 = none := by
    rw [userSource_page hva hdown, if_pos h0]
  cases len with
  | zero => rfl
  | succ len => rw [copyBytes, hsrc]

/-- The bytes of the first page, and those from the next one on. -/
theorem copyBytes_page {srcva : Nat} (hva : srcva < 2 ^ 64)
    (h0 : walkaddr k pagetable (PGROUNDDOWN srcva) ≠ 0) (len : Nat) :
    copyBytes (userSource k pagetable srcva) 0 len
      = (k.cell (walkaddr k pagetable (PGROUNDDOWN srcva))).slice (srcva - PGROUNDDOWN srcva)
          (min (PGSIZE - (srcva - PGROUNDDOWN srcva)) len)
        ++ copyBytes (userSource k pagetable ((PGROUNDDOWN srcva + PGSIZE) % 2 ^ 64)) 0
          (len - min (PGSIZE - (srcva - PGROUNDDOWN srcva)) len) := by
  have hn : min (PGSIZE - (srcva - PGROUNDDOWN srcva)) len
      ≤ PGSIZE - (srcva - PGROUNDDOWN srcva) := Nat.min_le_left ..
  have hn' : min (PGSIZE - (srcva - PGROUNDDOWN srcva)) len ≤ len := Nat.min_le_right ..
  have hrest : 0 < len - min (PGSIZE - (srcva - PGROUNDDOWN srcva)) len →
      min (PGSIZE - (srcva - PGROUNDDOWN srcva)) len
        = PGSIZE - (srcva - PGROUNDDOWN srcva) := by omega
  generalize min (PGSIZE - (srcva - PGROUNDDOWN srcva)) len = n at hn hn' hrest
  have hfirst : copyBytes (userSource k pagetable srcva) 0 n
      = (k.cell (walkaddr k pagetable (PGROUNDDOWN srcva))).slice
        (srcva - PGROUNDDOWN srcva) n := by
    refine copyBytes_some n fun j hj => ?_
    rw [zero_add, userSource_page hva (by omega), if_neg h0]
  have hnext : copyBytes (userSource k pagetable srcva) n (len - n)
      = copyBytes (userSource k pagetable ((PGROUNDDOWN srcva + PGSIZE) % 2 ^ 64)) 0 (len - n) := by
    refine copyBytes_congr _ fun j hj => ?_
    rw [hrest (by omega), zero_add, userSource_next]
  have hsplit := copyBytes_add (userSource k pagetable srcva) 0 n (len - n)
  rwa [Nat.add_sub_cancel' hn', Nat.zero_add, hfirst, if_pos (ByteVec.slice_length ..), hnext]
    at hsplit

/-- **`copyin` moves the bytes before the first unmapped one**, and
succeeds if these are all. -/
theorem copyinTo_eq (fuel : Nat) : ∀ {srcva len : Nat}, len ≤ fuel → srcva < 2 ^ 64 →
    copyinTo k pagetable fuel srcva len
      = (decide ((copyBytes (userSource k pagetable srcva) 0 len).length = len),
        copyBytes (userSource k pagetable srcva) 0 len) := by
  induction fuel with
  | zero =>
    intro srcva len hlen _
    obtain rfl : len = 0 := by omega
    rfl
  | succ fuel ih =>
    intro srcva len hlen hva
    cases len with
    | zero => rfl
    | succ len =>
      have hdown : srcva - PGROUNDDOWN srcva < PGSIZE := by
        show srcva - srcva / 4096 * 4096 < 4096
        omega
      simp only [copyinTo]
      by_cases h0 : walkaddr k pagetable (PGROUNDDOWN srcva) = 0
      · rw [if_pos h0, copyBytes_unmapped hva h0]
        rfl
      · -- this page, and the copy from the next one on
        rw [if_neg h0, copyBytes_page hva h0, ih (by omega) (mod_lt _ (by decide))]
        simp_all <;> omega

/-- The result of `copyin` from a user buffer, and what it has stored. -/
theorem copyin_eq {srcva len : Nat} (hva : srcva < 2 ^ 64) :
    copyin k pagetable srcva len
      = if (copyBytes (userSource k pagetable srcva) 0 len).length = len
        then some (copyBytes (userSource k pagetable srcva) 0 len) else none := by
  rw [copyin, copyinLoop_eq, copyinTo_eq _ (le_refl len) hva]
  simp only [decide_eq_true_eq]

end Vm

end Xv6
