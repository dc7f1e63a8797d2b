import Xv6.Layout
import Xv6.Radix

/-!
# Pages and page-table entries

The paging constants of `riscv.h` and `memlayout.h`, and the arithmetic
of page-table entries. Addresses and entries are 64-bit values, kept as
numbers below `2 ^ 64`.
-/

namespace Xv6

open Nat

abbrev PGSIZE : Nat := 4096

/-- Entries of a page-table page. -/
abbrev NPTE : Nat := 512

abbrev MAXVA : Nat := 2 ^ 38
abbrev TRAMPOLINE : Nat := MAXVA - PGSIZE
abbrev TRAPFRAME : Nat := TRAMPOLINE - PGSIZE
abbrev UART0 : Nat := 0x10000000
abbrev VIRTIO0 : Nat := 0x10001000
abbrev PLIC : Nat := 0x0c000000
abbrev KERNBASE : Nat := 0x80000000
abbrev MAXARG : Nat := 32

/-- The virtual address of a process's kernel stack. -/
def KSTACK (p : Nat) : Nat := TRAMPOLINE - (p + 1) * 2 * PGSIZE

def PGROUNDUP (sz : Nat) : Nat := (sz + PGSIZE - 1) % 2 ^ 64 / PGSIZE * PGSIZE

def PGROUNDDOWN (a : Nat) : Nat := a / PGSIZE * PGSIZE

abbrev PTE_V : Nat := 1
abbrev PTE_R : Nat := 2
abbrev PTE_W : Nat := 4
abbrev PTE_X : Nat := 8
abbrev PTE_U : Nat := 16

def PA2PTE (pa : Nat) : Nat := pa / 4096 * 1024

def PTE2PA (pte : Nat) : Nat := pte / 1024 * 4096 % 2 ^ 64

def PTE_FLAGS (pte : Nat) : Nat := pte % 1024

/-- `pte & flags` as a condition. -/
def pteHas (pte flags : Nat) : Bool := pte &&& flags != 0

/-- The index into the page-table page at `level`. -/
def PX (level va : Nat) : Nat := va / 2 ^ (12 + 9 * level) % 512

/-- Physical memory: the page with the trampoline code, the end of the
kernel's text, the end of the kernel and the end of the RAM. The
allocatable range, `[kend, phystop)`, is below 4 GiB. -/
structure Machine where
  trampoline : Nat
  etext : Nat
  kend : Nat
  phystop : Nat
  kernbase_lt : KERNBASE < etext
  trampoline_lt : trampoline < etext
  etext_le : etext ≤ kend
  kend_le : kend ≤ phystop
  phystop_le : phystop ≤ 2 ^ 56
  phystop_mod : phystop % PGSIZE = 0
  small : phystop - kend < 2 ^ 32

/-- A page of the allocatable range. -/
def Machine.IsPage (M : Machine) (pa : Nat) : Prop :=
  pa % PGSIZE = 0 ∧ M.kend ≤ pa ∧ pa < M.phystop

instance (M : Machine) (pa : Nat) : Decidable (M.IsPage pa) :=
  inferInstanceAs (Decidable (_ ∧ _ ∧ _))

/-- The key of an address in the page-table tree: its page number. -/
def vpn (va : Nat) : Nat := va / PGSIZE

/-! ## Rounding -/

theorem pgroundup_eq {sz : Nat} (h : sz + 4096 ≤ 2 ^ 64) :
    PGROUNDUP sz = (sz + 4095) / 4096 * 4096 := by
  show (sz + 4095) % 2 ^ 64 / 4096 * 4096 = _
  rw [mod_eq_of_lt (by omega)]

/-! ## Entries -/

theorem px_eq (level va : Nat) : PX level va = (Radix.digit NPTE level (vpn va)).val := by
  rw [PX, Radix.digit_val, vpn, Nat.pow_add, Nat.div_div_eq_div_mul, pow_mul]
  rfl

theorem pteHas_v (pte : Nat) : pteHas pte PTE_V = decide (pte % 2 = 1) := by
  rw [pteHas, show PTE_V = 1 from rfl, and_one_is_mod]
  grind

/-- The flags are the low bits of an entry. -/
theorem pteHas_flags (pte : Nat) {f : Nat} (hf : f < 1024) : pteHas pte f = pteHas (PTE_FLAGS pte) f := by
  have hmask : 1023 &&& f = f := by
    rw [Nat.and_comm, show (1023 : Nat) = 2 ^ 10 - 1 from rfl, Nat.and_two_pow_sub_one_eq_mod,
      mod_eq_of_lt hf]
  have hflags : PTE_FLAGS pte = pte &&& 1023 := (and_two_pow_sub_one_eq_mod pte 10).symm
  rw [pteHas, pteHas, hflags, Nat.and_assoc, hmask]

/-- A valid entry that maps a page rather than linking a table. -/
def IsLeaf (pte : Nat) : Prop :=
  pte % 2 = 1 ∧ pteHas pte (PTE_R ||| PTE_W ||| PTE_X) = true

instance (pte : Nat) : Decidable (IsLeaf pte) := inferInstanceAs (Decidable (_ ∧ _))

variable {pte pa perm : Nat}

theorem IsLeaf.ne_zero (h : IsLeaf pte) : pte ≠ 0 := fun hc => by
  have := h.1
  omega

theorem IsLeaf.flags (h : IsLeaf pte) : PTE_FLAGS pte ≠ PTE_V := fun hc => by
  have h2 := h.2
  rw [pteHas_flags pte (by decide), hc] at h2
  exact absurd h2 (by decide)

/-- An entry made from a page and flags. -/
theorem pte_or (h : perm < 1024) : PA2PTE pa ||| perm = pa / 4096 * 1024 + perm := by
  rw [PA2PTE, mul_comm, show (1024 : Nat) = 2 ^ 10 from rfl,
    two_pow_add_eq_or_of_lt (by omega)]

/-- The entry `mappages` writes. -/
def mapEntry (pa perm : Nat) : Nat := PA2PTE pa ||| perm ||| PTE_V

theorem or_v_lt (h : perm < 1024) : perm ||| PTE_V < 1024 :=
  or_lt_two_pow (n := 10) h (by decide)

theorem mapEntry_eq (h : perm < 1024) : mapEntry pa perm = pa / 4096 * 1024 + (perm ||| PTE_V) := by
  rw [mapEntry, Nat.or_assoc, pte_or (or_v_lt h)]

theorem mapEntry_lt (hpa : pa < 2 ^ 64) (h : perm < 2 ^ 64) : mapEntry pa perm < 2 ^ 64 := by
  have hpte : PA2PTE pa < 2 ^ 64 := by
    rw [PA2PTE]
    omega
  exact or_lt_two_pow (or_lt_two_pow hpte h) (by decide)

theorem mapEntry_flags (h : perm < 1024) : PTE_FLAGS (mapEntry pa perm) = perm ||| PTE_V := by
  have := or_v_lt h
  rw [mapEntry_eq h, PTE_FLAGS]
  omega

theorem mapEntry_pa (hpa : pa < 2 ^ 64) (hmod : pa % 4096 = 0) (h : perm < 1024) :
    PTE2PA (mapEntry pa perm) = pa := by
  have := or_v_lt h
  rw [mapEntry_eq h, PTE2PA]
  omega

theorem or_v_mod (perm : Nat) : (perm ||| PTE_V) % 2 = 1 := by
  simp

theorem or_v_self (h : perm % 2 = 1) : perm ||| PTE_V = perm := by
  refine eq_of_testBit_eq fun i => ?_
  rw [testBit_or, show PTE_V = 1 from rfl]
  rcases i with _ | i
  · simp [h]
  · simp [testBit_succ]

theorem mapEntry_v (h : perm < 1024) : mapEntry pa perm % 2 = 1 := by
  have := or_v_mod perm
  rw [mapEntry_eq h]
  omega

theorem mapEntry_leaf (h : perm < 1024) (hrwx : pteHas perm (PTE_R ||| PTE_W ||| PTE_X) = true) :
    IsLeaf (mapEntry pa perm) := by
  refine ⟨mapEntry_v h, ?_⟩
  rw [pteHas_flags _ (by decide), mapEntry_flags h]
  unfold pteHas at hrwx ⊢
  rw [and_or_distrib_right, show PTE_V &&& (PTE_R ||| PTE_W ||| PTE_X) = 0 from rfl, or_zero]
  exact hrwx

/-- Clearing `PTE_U` keeps the address and the other flags. -/
theorem clear_u_pa (h : pte < 2 ^ 64) : PTE2PA (pte &&& (2 ^ 64 - 1 - PTE_U)) = PTE2PA pte := by
  have hdiv : (pte &&& (2 ^ 64 - 1 - PTE_U)) / 2 ^ 10 = pte / 2 ^ 10 := by
    rw [and_div_two_pow, show (2 ^ 64 - 1 - PTE_U) / 2 ^ 10 = 2 ^ 54 - 1 from rfl,
      and_two_pow_sub_one_eq_mod, mod_eq_of_lt (by omega)]
  rw [PTE2PA, PTE2PA, show (1024 : Nat) = 2 ^ 10 from rfl, hdiv]

theorem clear_u_leaf (h : IsLeaf pte) : IsLeaf (pte &&& (2 ^ 64 - 1 - PTE_U)) := by
  refine ⟨?_, ?_⟩
  · simp [pow_one, h.1, and_mod_two_pow, PTE_U]
  · have hrwx := h.2
    grind [Nat.and_assoc, pteHas]

/-- Which user flag an entry made by `mappages` has. -/
theorem mapEntry_u (h : perm < 1024) : pteHas (mapEntry pa perm) PTE_U = pteHas perm PTE_U := by
  rw [pteHas_flags _ (by decide), mapEntry_flags h, pteHas, and_or_distrib_right,
    show PTE_V &&& PTE_U = 0 from rfl, or_zero]
  rfl

end Xv6
