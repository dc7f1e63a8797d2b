import Xv6.ByteVec

/-!
# The two `memmove`s

The kernel's (`string.c`) and the user library's (`ulib.c`) differ in the
test that picks the direction. Pointers are 64-bit, so the one past the
last byte may be 0.
-/

namespace Xv6

open Function ByteVec

/-- Memory by address. -/
abbrev Bytes := Nat → Byte

/-- `while(n-- > 0) *d++ = *s++;` -/
def copyUp (mem : Bytes) (d s : Nat) : Nat → Bytes
  | 0 => mem
  | n + 1 => copyUp (update mem d (mem s)) ((d + 1) % 2 ^ 64) ((s + 1) % 2 ^ 64) n

/-- `while(n-- > 0) *--d = *--s;` -/
def copyDown (mem : Bytes) (d s : Nat) : Nat → Bytes
  | 0 => mem
  | n + 1 =>
    let d := (d + 2 ^ 64 - 1) % 2 ^ 64
    let s := (s + 2 ^ 64 - 1) % 2 ^ 64
    copyDown (update mem d (mem s)) d s n

/-- `memmove` of `string.c`: the pointer returned, and the memory. -/
def Kernel.memmove (mem : Bytes) (dst src n : Nat) : Nat × Bytes :=
  if n = 0 then (dst, mem)
  else if src < dst ∧ (src + n) % 2 ^ 64 > dst then
    (dst, copyDown mem ((dst + n) % 2 ^ 64) ((src + n) % 2 ^ 64) n)
  else (dst, copyUp mem dst src n)

/-- `memmove` of `ulib.c`. -/
def User.memmove (mem : Bytes) (dst src n : Nat) : Nat × Bytes :=
  if src > dst then (dst, copyUp mem dst src n)
  else (dst, copyDown mem ((dst + n) % 2 ^ 64) ((src + n) % 2 ^ 64) n)

/-- The destination holds what the source held, everything else is as it
was. -/
def moved (mem : Bytes) (dst src n : Nat) : Bytes :=
  fun a => if dst ≤ a ∧ a < dst + n then mem (src + (a - dst)) else mem a

variable {mem : Bytes} {dst src n : Nat}

theorem moved_zero : moved mem dst src 0 = mem := by
  funext a
  exact if_neg (by omega)

/-- The byte written first is read by no later step. -/
theorem moved_up (hsafe : dst ≤ src ∨ src + (n + 1) ≤ dst) :
    moved (update mem dst (mem src)) (dst + 1) (src + 1) n = moved mem dst src (n + 1) := by
  funext a
  simp only [moved, update_apply]
  grind

/-- Upwards is safe unless the destination starts inside the source. -/
theorem copyUp_eq (hd : dst + n ≤ 2 ^ 64) (hs : src + n ≤ 2 ^ 64)
    (hsafe : dst ≤ src ∨ src + n ≤ dst) : copyUp mem dst src n = moved mem dst src n := by
  induction n generalizing mem dst src with
  | zero => rw [copyUp, moved_zero]
  | succ n ih =>
    rw [copyUp, ← moved_up hsafe]
    cases n with
    | zero => rw [copyUp, moved_zero]
    | succ n =>
      rw [Nat.mod_eq_of_lt (by omega), Nat.mod_eq_of_lt (by omega),
        ih (by omega) (by omega) (by omega)]

/-- Downwards is safe unless the source starts inside the destination. -/
theorem copyDown_eq (hd : dst + n ≤ 2 ^ 64) (hs : src + n ≤ 2 ^ 64)
    (hsafe : src ≤ dst ∨ dst + n ≤ src) :
    copyDown mem ((dst + n) % 2 ^ 64) ((src + n) % 2 ^ 64) n = moved mem dst src n := by
  induction n generalizing mem with
  | zero => rw [copyDown, moved_zero]
  | succ n ih =>
    have hback : ∀ p, p + (n + 1) ≤ 2 ^ 64 →
        ((p + (n + 1)) % 2 ^ 64 + 2 ^ 64 - 1) % 2 ^ 64 = (p + n) % 2 ^ 64 := by omega
    have hlast : ∀ p, p + (n + 1) ≤ 2 ^ 64 → (p + n) % 2 ^ 64 = p + n := by omega
    rw [copyDown, hback _ hd, hback _ hs, ih (by omega) (by omega) (by omega), hlast _ hd,
      hlast _ hs]
    funext a
    grind [moved, update_apply]

/-- Both implementations move the bytes, however the ranges overlap. -/
theorem memmoves_agree (mem : Bytes) (dst src n : Nat) (hd : dst + n ≤ 2 ^ 64)
    (hs : src + n ≤ 2 ^ 64) :
    Kernel.memmove mem dst src n = (dst, moved mem dst src n)
    ∧ User.memmove mem dst src n = (dst, moved mem dst src n) := by
  unfold Kernel.memmove User.memmove
  constructor
  · split_ifs with hn hover
    · rw [hn, moved_zero]
    · rw [copyDown_eq hd hs (by omega)]
    · rw [copyUp_eq hd hs (by omega)]
  · split_ifs
    · rw [copyUp_eq hd hs (by omega)]
    · rw [copyDown_eq hd hs (by omega)]

/-- Ranges that overlap, at the top of the address space. -/
theorem memmoves_agree_overlap :
    (User.memmove (fun a => BitVec.ofNat 8 a) (2 ^ 64 - 3) (2 ^ 64 - 4) 3).2 (2 ^ 64 - 1)
      = BitVec.ofNat 8 (2 ^ 64 - 2) := by
  rw [(memmoves_agree _ _ _ 3 (by decide) (by decide)).2]
  rfl

end Xv6
