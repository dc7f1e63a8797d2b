import Mathlib

/-!
# Fixed-size byte buffers and little-endian words

A buffer of `n` bytes, read and written at byte offsets. All writing
goes through `patch` (copy a byte string over the buffer at an offset),
all reading through `slice`; a little-endian word of `k` bytes is a
slice decoded by `leNat`, and storing one is a patch by `leBytes`.

Two laws carry every codec built on top: a slice of the patched range
is what was patched in (`slice_patch_self`), and a slice that does not
meet the patched range is unchanged (`slice_patch_disjoint`).
-/

namespace ByteVec

open Nat

abbrev Byte := BitVec 8

/-! ## Little-endian byte strings -/

/-- The number a little-endian byte string denotes. -/
def leNat : List Byte → Nat
  | [] => 0
  | b :: bs => b.toNat + 256 * leNat bs

/-- The low `k` bytes of `w`, least significant first. -/
def leBytes : Nat → Nat → List Byte
  | 0, _ => []
  | k + 1, w => BitVec.ofNat 8 w :: leBytes k (w / 256)

@[simp] theorem leBytes_length (k w : Nat) : (leBytes k w).length = k := by
  induction k generalizing w with
  | zero => rfl
  | succ k ih => simp [leBytes, ih]

theorem leNat_leBytes (k w : Nat) : leNat (leBytes k w) = w % 256 ^ k := by
  induction k generalizing w with
  | zero => simp [leBytes, leNat, mod_one]
  | succ k ih =>
    simp only [leBytes, leNat, ih, BitVec.toNat_ofNat, reducePow]
    rw [pow_succ, mul_comm (256 ^ k) 256, mod_mul]

theorem leNat_lt (bs : List Byte) : leNat bs < 256 ^ bs.length := by
  induction bs with
  | nil => simp [leNat]
  | cons b bs ih =>
    simp only [leNat, List.length_cons, pow_succ]
    omega

end ByteVec

open ByteVec (Byte leNat leBytes)

/-- A buffer of exactly `n` bytes. -/
def ByteVec (n : Nat) : Type := Fin n → Byte

namespace ByteVec

variable {n : Nat}

/-! ## Reading and writing -/

/-- The byte at offset `i`; zero past the end. -/
def byte (v : ByteVec n) (i : Nat) : Byte :=
  if h : i < n then v ⟨i, h⟩ else 0

/-- Copy `bs` over the buffer at offset `off`, dropping what does not
fit. -/
def patch (v : ByteVec n) (off : Nat) (bs : List Byte) : ByteVec n :=
  fun i => if off ≤ i.val then bs.getD (i.val - off) (v i) else v i

/-- The `len` bytes from offset `off`. -/
def slice (v : ByteVec n) (off len : Nat) : List Byte :=
  (List.range len).map fun j => v.byte (off + j)

/-- Every byte equal to `b`. -/
def fill (n : Nat) (b : Byte) : ByteVec n := fun _ => b

/-- The little-endian word of `k` bytes at offset `off`. -/
def word (v : ByteVec n) (k off : Nat) : Nat := leNat (v.slice off k)

/-- Store the low `k` bytes of `w` at offset `off`, little-endian. -/
def setWord (v : ByteVec n) (k off w : Nat) : ByteVec n :=
  v.patch off (leBytes k w)

@[ext] theorem ext {v w : ByteVec n} (h : ∀ i < n, v.byte i = w.byte i) : v = w := by
  funext i
  simp_all [byte, i.isLt]

variable {i off len j off' k : Nat} {bs : List Byte}

theorem byte_of_ge {v : ByteVec n} (h : n ≤ i) : v.byte i = 0 := by
  rw [byte, dif_neg (by omega)]

@[simp] theorem byte_fill {b : Byte} (h : i < n) : (fill n b).byte i = b := by
  simp [byte, fill, h]

@[simp] theorem slice_length (v : ByteVec n) (off len : Nat) :
    (v.slice off len).length = len := by
  simp [slice]

theorem slice_getD (v : ByteVec n) (h : j < len) (b : Byte) :
    (v.slice off len).getD j b = v.byte (off + j) := by
  simp [slice, List.getD_eq_getElem?_getD, h]

/-- Inside the patched range the patch shows. -/
theorem byte_patch_in {v : ByteVec n} (h1 : off ≤ i) (h2 : i < off + bs.length) (h3 : i < n)
    (d : Byte) : (v.patch off bs).byte i = bs.getD (i - off) d := by
  have hlt : i - off < bs.length := by omega
  simp [byte, patch, h1, h3, List.getD_eq_getElem?_getD, hlt]

/-- Outside the patched range the buffer shows. -/
theorem byte_patch_out {v : ByteVec n} (h : i < off ∨ off + bs.length ≤ i) :
    (v.patch off bs).byte i = v.byte i := by
  by_cases hi : i < n
  · simp only [byte, hi, dif_pos, patch]
    grind
  · rw [byte_of_ge (by omega), byte_of_ge (by omega)]

/-! ## The two patch laws -/

/-- Storing the bytes that are there. -/
theorem patch_eq_self {v : ByteVec n} (h : ∀ j < bs.length, bs.getD j 0 = v.byte (off + j)) :
    v.patch off bs = v := by
  refine ext fun i hi => ?_
  by_cases hin : off ≤ i ∧ i < off + bs.length
  · rw [byte_patch_in hin.1 hin.2 hi 0, h _ (by omega), Nat.add_sub_cancel' hin.1]
  · exact byte_patch_out (by omega)

theorem slice_congr {v w : ByteVec n} (h : ∀ i, off ≤ i → i < off + len → v.byte i = w.byte i) :
    v.slice off len = w.slice off len := by
  refine List.map_congr_left fun j hj => ?_
  rw [List.mem_range] at hj
  exact h (off + j) (by omega) (by omega)

theorem slice_patch_self {v : ByteVec n} (h : off + bs.length ≤ n) :
    (v.patch off bs).slice off bs.length = bs := by
  refine List.ext_getElem (by simp) fun j h1 h2 => ?_
  simp only [slice, List.getElem_map, List.getElem_range]
  rw [byte_patch_in (by omega) (by omega) (by omega) 0, Nat.add_sub_cancel_left,
    List.getD_eq_getElem?_getD, List.getElem?_eq_getElem h2, Option.getD_some]

theorem slice_patch_disjoint {v : ByteVec n} (h : off' + len ≤ off ∨ off + bs.length ≤ off') :
    (v.patch off bs).slice off' len = v.slice off' len :=
  slice_congr fun i h1 h2 => byte_patch_out (by omega)

theorem word_patch_disjoint {v : ByteVec n} (h : off' + k ≤ off ∨ off + bs.length ≤ off') :
    (v.patch off bs).word k off' = v.word k off' := by
  rw [word, slice_patch_disjoint h, word]

/-! ## Words -/

theorem word_lt (v : ByteVec n) (k off : Nat) : v.word k off < 256 ^ k := by
  have := leNat_lt (v.slice off k)
  rwa [slice_length] at this

theorem word_setWord_self {v : ByteVec n} {w : Nat} (h : off + k ≤ n) :
    (v.setWord k off w).word k off = w % 256 ^ k := by
  have hs : (v.patch off (leBytes k w)).slice off k = leBytes k w := by
    grind [slice_patch_self, leBytes_length]
  rw [word, setWord, hs, leNat_leBytes]

theorem word_setWord_disjoint {v : ByteVec n} {k' w : Nat} (h : off' + k' ≤ off ∨ off + k ≤ off') :
    (v.setWord k off w).word k' off' = v.word k' off' :=
  word_patch_disjoint (by simpa using h)

theorem leNat_replicate_zero (k : Nat) : leNat (List.replicate k 0) = 0 := by
  induction k with
  | zero => rfl
  | succ k ih =>
    rw [List.replicate_succ, leNat, ih]
    rfl

/-- Every word of a zeroed buffer is zero. -/
theorem word_fill_zero (k off : Nat) : (fill n 0).word k off = 0 := by
  have hbyte : ∀ i, (fill n 0).byte i = 0 := by grind [byte_fill, byte_of_ge]
  rw [word, slice]
  simp only [hbyte, List.map_const', List.length_range]
  exact leNat_replicate_zero k

/-- Store consecutive words. -/
def setWords (v : ByteVec n) (k off : Nat) : List Nat → ByteVec n
  | [] => v
  | w :: ws => (v.setWord k off w).setWords k (off + k) ws

theorem word_setWords_disjoint {k' : Nat} {ws : List Nat} :
    ∀ {v : ByteVec n} {off : Nat}, off' + k' ≤ off ∨ off + k * ws.length ≤ off' →
      (v.setWords k off ws).word k' off' = v.word k' off' := by
  induction ws with
  | nil => intro _ _ _; rfl
  | cons w ws ih =>
    intro v off h
    rw [List.length_cons, Nat.mul_succ] at h
    rw [setWords, ih (by omega), word_setWord_disjoint (by omega)]

theorem word_setWords_self {ws : List Nat} :
    ∀ {v : ByteVec n} {off i : Nat}, off + k * ws.length ≤ n → i < ws.length →
      (v.setWords k off ws).word k (off + k * i) = ws.getD i 0 % 256 ^ k := by
  induction ws with
  | nil => intro _ _ _ _ hi; exact absurd hi (Nat.not_lt_zero _)
  | cons w ws ih =>
    intro v off i h hi
    rw [List.length_cons, Nat.mul_succ] at h
    rw [setWords]
    cases i with
    | zero =>
      rw [mul_zero, add_zero, word_setWords_disjoint (by omega),
        word_setWord_self (by omega)]
      rfl
    | succ i =>
      grind

/-! ## Bits -/

/-- Bit `i`, counted from the least significant bit of byte 0. -/
def bit (v : ByteVec n) (i : Nat) : Bool := (v.byte (i / 8)).getLsbD (i % 8)

/-- `data[i/8] |= 1 << (i % 8)`. -/
def setBit (v : ByteVec n) (i : Nat) : ByteVec n :=
  v.patch (i / 8) [v.byte (i / 8) ||| (1#8 <<< (i % 8))]

/-- `data[i/8] &= ~(1 << (i % 8))`. -/
def clearBit (v : ByteVec n) (i : Nat) : ByteVec n :=
  v.patch (i / 8) [v.byte (i / 8) &&& ~~~(1#8 <<< (i % 8))]

/-- Replacing the byte that holds bit `i`. -/
theorem bit_patch_byte {v : ByteVec n} {x : Byte} (hj : j < 8 * n) :
    (v.patch (i / 8) [x]).bit j = if j / 8 = i / 8 then x.getLsbD (j % 8) else v.bit j := by
  unfold bit
  by_cases h : j / 8 = i / 8
  · rw [if_pos h, h, byte_patch_in (by omega) (by simp) (by omega) 0]
    simp
  · rw [if_neg h, byte_patch_out]
    simp only [List.length_singleton]
    omega

theorem bit_setBit {v : ByteVec n} (hj : j < 8 * n) :
    (v.setBit i).bit j = if j = i then true else v.bit j := by
  rw [setBit, bit_patch_byte hj]
  by_cases h : j / 8 = i / 8
  · have hj8 : j % 8 < 8 := Nat.mod_lt _ (by decide)
    by_cases hji : j = i
    · subst hji
      simp [hj8]
    · simp only [BitVec.getLsbD_or, BitVec.getLsbD_shiftLeft, hj8, decide_true, Bool.true_and,
        BitVec.getLsbD_one, if_neg hji, bit, h]
      grind
  · grind

theorem bit_clearBit {v : ByteVec n} (hj : j < 8 * n) :
    (v.clearBit i).bit j = if j = i then false else v.bit j := by
  rw [clearBit, bit_patch_byte hj]
  by_cases h : j / 8 = i / 8
  · have hj8 : j % 8 < 8 := Nat.mod_lt _ (by decide)
    by_cases hji : j = i
    · subst hji
      simp [hj8]
    · simp only [BitVec.getLsbD_and, BitVec.getLsbD_not, BitVec.getLsbD_shiftLeft, hj8,
        decide_true, Bool.true_and, BitVec.getLsbD_one, if_neg hji, bit, h]
      grind
  · grind

end ByteVec
