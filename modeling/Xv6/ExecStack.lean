import Xv6.ExecLoad

/-!
# The arguments on the stack

`exec` copies the argument strings to the last page of the new image,
one below the other, each at a multiple of 16, and the array of pointers
to them below. What they take is `argSize`; they fit when that is at most
a page.
-/

namespace Xv6.Vm

open List Nat

open ByteVec (Byte leNat leBytes)
open Transfer Radix Ranges

/-- A kernel page with the string `s` at its start. -/
structure ArgAt (k : Kmem) (a : Nat) (s : List Byte) : Prop where
  noNul : 0 ∉ s
  short : s.length < PGSIZE
  bytes : (k.cell a).slice 0 (s.length + 1) = s ++ [0]

/-- A size rounded up to a multiple of 16. -/
def round16 (n : Nat) : Nat := (n + 15) / 16 * 16

/-- What the strings take of the stack. -/
def stackSize (strs : List (List Byte)) : Nat := (strs.map fun s => round16 (s.length + 1)).sum

/-- What the strings and the array of pointers take. -/
def argSize (strs : List (List Byte)) : Nat := stackSize strs + round16 (8 * (strs.length + 1))

/-- The address of the `i`-th string below `top`. -/
def argPtr (top : Nat) (strs : List (List Byte)) (i : Nat) : Nat :=
  top - stackSize (strs.take (i + 1))

def argPtrs (top : Nat) (strs : List (List Byte)) : List Nat :=
  (range strs.length).map (argPtr top strs)

section Sizes

variable {s : List Byte} {strs : List (List Byte)} {top i j : Nat}

@[simp] theorem stackSize_nil : stackSize [] = 0 := rfl

@[simp] theorem stackSize_cons (s : List Byte) (strs : List (List Byte)) :
    stackSize (s :: strs) = round16 (s.length + 1) + stackSize strs := by
  simp [stackSize]

@[simp] theorem argPtrs_length (top : Nat) (strs : List (List Byte)) :
    (argPtrs top strs).length = strs.length := by
  simp [argPtrs]

theorem argPtr_zero (top : Nat) (s : List Byte) (strs : List (List Byte)) :
    argPtr top (s :: strs) 0 = top - round16 (s.length + 1) := by
  simp [argPtr]

theorem argPtr_succ (top : Nat) (s : List Byte) (strs : List (List Byte)) (i : Nat) :
    argPtr top (s :: strs) (i + 1) = argPtr (top - round16 (s.length + 1)) strs i := by
  simp [argPtr, Nat.sub_sub]

theorem argPtrs_cons (top : Nat) (s : List Byte) (strs : List (List Byte)) :
    argPtrs top (s :: strs)
      = (top - round16 (s.length + 1)) :: argPtrs (top - round16 (s.length + 1)) strs := by
  simp [argPtrs, range_succ_eq_map, argPtr_zero, argPtr_succ, Function.comp_def]

theorem le_round16 (n : Nat) : n ≤ round16 n := by
  unfold round16
  omega

theorem round16_mod (n : Nat) : round16 n % 16 = 0 := by
  unfold round16
  omega

theorem stackSize_mod (strs : List (List Byte)) : stackSize strs % 16 = 0 := by
  induction strs with
  | nil => rfl
  | cons s strs ih =>
    have := round16_mod (s.length + 1)
    rw [stackSize_cons]
    omega

theorem stackSize_append (strs strs' : List (List Byte)) :
    stackSize (strs ++ strs') = stackSize strs + stackSize strs' := by
  simp [stackSize]

theorem stackSize_take_le (strs : List (List Byte)) (i : Nat) :
    stackSize (strs.take i) ≤ stackSize strs := by
  have h := stackSize_append (strs.take i) (strs.drop i)
  rw [take_append_drop] at h
  omega

theorem stackSize_take_succ (h : i < strs.length) :
    stackSize (strs.take (i + 1)) = stackSize (strs.take i) + round16 (strs[i].length + 1) := by
  rw [take_add_one, getElem?_eq_getElem h, stackSize_append]
  simp

/-- A string ends where the one before it begins, at the latest. -/
theorem argPtr_end (top : Nat) (hi : i < strs.length) (htop : stackSize strs ≤ top) :
    argPtr top strs i + (strs[i].length + 1) ≤ top - stackSize (strs.take i) := by
  have h₁ := stackSize_take_succ hi
  have h₂ := stackSize_take_le strs (i + 1)
  have h₃ := le_round16 (strs[i].length + 1)
  unfold argPtr
  omega

/-- A later string ends below an earlier one. -/
theorem argPtr_disjoint (hij : i < j) (hj : j < strs.length) (htop : stackSize strs ≤ top) :
    argPtr top strs j + (strs[j].length + 1) ≤ argPtr top strs i := by
  have hend := argPtr_end top hj htop
  have hle := stackSize_take_le (strs.take j) (i + 1)
  rw [take_take, min_eq_left (by omega)] at hle
  unfold argPtr at hend ⊢
  omega

theorem le_argPtr (strs : List (List Byte)) (i : Nat) (htop : stackSize strs ≤ top) : top - stackSize strs ≤ argPtr top strs i := by
  have := stackSize_take_le strs (i + 1)
  unfold argPtr
  omega

end Sizes

section Push

variable {M : Machine} {k k' : Kmem} {t : Table} {pt tf n sp m a : Nat} {f : Nat → Byte}
  {s bs : List Byte}

theorem ArgAt.byte (h : ArgAt k a s) {i : Nat} (hi : i < s.length + 1) :
    (k.cell a).byte i = (s ++ [0]).getD i 0 := by
  rw [← h.bytes, ByteVec.slice_getD _ hi, zero_add]

theorem ArgAt.strlen (h : ArgAt k a s) : strlen (k.cell a) = s.length := by
  have hfind : (range PGSIZE).find? (fun i => decide ((k.cell a).byte i = 0))
      = some s.length := by
    rw [find?_range_eq_some]
    refine ⟨?_, mem_range.mpr h.short, fun j hj => ?_⟩
    · simp [h.byte (lt_succ_self _)]
    · have hne : s[j] ≠ 0 := fun hc => h.noNul (hc ▸ getElem_mem hj)
      simpa [h.byte (lt_succ_of_lt hj), getElem?_append_left hj, hj] using hne
  rw [Vm.strlen, hfind]
  rfl

/-- Arguments whose pages keep their contents. -/
theorem ArgAt.frame_all {argv : List Nat} {strs : List (List Byte)}
    (h : List.Forall₂ (ArgAt k) argv strs) (hcell : ∀ a ∈ argv, k'.cell a = k.cell a) :
    List.Forall₂ (ArgAt k') argv strs := by
  induction h with
  | nil => exact .nil
  | cons hat _ ih =>
    exact .cons ⟨hat.noNul, hat.short, hcell _ mem_cons_self ▸ hat.bytes⟩
      (ih fun a ha => hcell a (mem_cons_of_mem _ ha))

theorem pushDown_eq (h16 : sp % 16 = 0) (hm : m ≤ sp) (hsp : sp < 2 ^ 64) :
    pushDown sp m = sp - round16 m := by
  simp only [pushDown, round16, show (sp + 2 ^ 64 - m) % 2 ^ 64 = sp - m by omega]
  omega

/-- A push that stays in the stack page. -/
theorem push_fits (h : Holds M tf k t pt (n + 1) f) (hu : UserPage t n) (sp : Nat)
    (bs : List Byte) (h16 : sp % 16 = 0)
    (htop : sp ≤ (n + 1) * 4096) (hpos : 0 < bs.length)
    (hfit : n * 4096 + round16 bs.length ≤ sp) :
    ∃ k', push pt (n * 4096) k sp bs.length bs = (some (sp - round16 bs.length), k')
      ∧ Stores k {PTE2PA (t.get n)} k'
      ∧ Holds M tf k' t pt (n + 1) (put f (sp - round16 bs.length) bs) := by
  have hle : n + 1 ≤ 2 ^ 26 - 2 := h.space.user.le
  have hround := le_round16 bs.length
  have hdown := pushDown_eq h16 (show bs.length ≤ sp by omega) (by omega)
  have hin : sp - round16 bs.length < (n + 1) * 4096 := by omega
  have hvpn : vpn (sp - round16 bs.length) = n := by
    show (sp - round16 bs.length) / 4096 = n
    omega
  obtain ⟨k', hrun, hst, h'⟩ := h.copyout (sp - round16 bs.length) bs hin
    (hvpn ▸ hu) (by omega)
  rw [hvpn] at hst
  refine ⟨k', ?_, hst, h'⟩
  rw [push, hdown, if_neg (by omega), hrun]

/-- A push that does not. -/
theorem push_full (h16 : sp % 16 = 0) (hm : m ≤ sp) (hsp : sp < 2 ^ 64)
    (hfull : sp < n * 4096 + round16 m) : push pt (n * 4096) k sp m bs = (none, k) := by
  have hround : round16 m ≤ sp := by
    unfold round16
    omega
  rw [push, pushDown_eq h16 hm hsp, if_pos (by omega)]

end Push

/-! ## All arguments -/

/-- The strings and the pointers to them in the stack page, below `top`. -/
structure ArgsLaid (g : Nat → Byte) (top : Nat) (strs : List (List Byte)) : Prop where
  string : ∀ i (hi : i < strs.length),
    Ranges.get g (argPtr top strs i) (strs[i].length + 1) = strs[i] ++ [0]
  array : Ranges.get g (top - argSize strs) (8 * (argPtrs top strs ++ [0]).length)
    = (argPtrs top strs ++ [0]).flatMap (leBytes 8)

section Args

variable {M : Machine} {t : Table} {pt tf n : Nat}

/-- Strings that fit: each stays as it is when the ones after it are
pushed below. -/
theorem pushArgs_fits (hu : UserPage t n) {argv : List Nat} :
    ∀ (sp : Nat) (ustack : List Nat) {strs : List (List Byte)} {k : Kmem} {f : Nat → Byte},
    Holds M tf k t pt (n + 1) f → List.Forall₂ (ArgAt k) argv strs →
    (∀ a ∈ argv, a ≠ PTE2PA (t.get n)) → ustack.length + argv.length ≤ MAXARG → sp % 16 = 0 →
    sp ≤ (n + 1) * 4096 → n * 4096 + stackSize strs ≤ sp →
    ∃ k' g, pushArgs (pushArg pt (n * 4096)) argv k sp ustack
        = (some (sp - stackSize strs, (argPtrs sp strs).reverse ++ ustack), k')
      ∧ Stores k {PTE2PA (t.get n)} k' ∧ Holds M tf k' t pt (n + 1) g
      ∧ (∀ x, x < sp - stackSize strs ∨ sp ≤ x → g x = f x)
      ∧ ∀ i (hi : i < strs.length),
        Ranges.get g (argPtr sp strs i) (strs[i].length + 1) = strs[i] ++ [0] := by
  induction argv with
  | nil =>
    intro sp ustack strs k f h hargs _ _ _ _ _
    cases hargs
    exact ⟨k, f, rfl, .refl .., h, fun _ _ => rfl, fun i hi => absurd hi (not_lt_zero i)⟩
  | cons a argv ih =>
    intro sp ustack strs k f h hargs hapart hmax h16 htop hfit
    obtain ⟨s, strs, harg, hrest, rfl⟩ := forall₂_cons_left_iff.mp hargs
    have hlen : (s ++ [0]).length = s.length + 1 := by simp
    have hround := round16_mod (s.length + 1)
    rw [stackSize_cons] at hfit
    obtain ⟨k₁, hpush, hst₁, h₁⟩ := push_fits h hu sp (s ++ [0]) h16 htop (by simp)
      (by rw [hlen]; omega)
    rw [hlen] at hpush h₁
    have hrest₁ := ArgAt.frame_all hrest fun b hb =>
      hst₁.frame b (by simpa using hapart b (mem_cons_of_mem a hb))
    obtain ⟨k', g, hrun, hst', h', hout, hstr⟩ := ih (sp - round16 (s.length + 1))
      ((sp - round16 (s.length + 1)) :: ustack) h₁ hrest₁
      (fun b hb => hapart b (mem_cons_of_mem a hb))
      (by simp only [length_cons] at hmax ⊢; omega) (by omega) (by omega) (by omega)
    rw [Nat.sub_sub] at hrun hout
    refine ⟨k', g, ?_, hst₁.trans hst', h', fun x hx => ?_, fun i hi => ?_⟩
    · have hroom : ¬MAXARG ≤ ustack.length := by grind
      rw [pushArgs, if_neg hroom, pushArg, harg.strlen, harg.bytes, hpush]
      simp only [hrun, stackSize_cons, argPtrs_cons, reverse_cons, append_assoc,
        singleton_append]
    · rw [stackSize_cons] at hx
      have hle := le_round16 (s.length + 1)
      rw [hout x (by omega), put_out (by rw [hlen]; omega)]
    · cases i with
      | zero =>
        have hkeep : Ranges.get g (sp - round16 (s.length + 1)) (s.length + 1)
            = Ranges.get (put f (sp - round16 (s.length + 1)) (s ++ [0]))
              (sp - round16 (s.length + 1)) (s.length + 1) :=
          get_congr fun i _ => hout _ (.inr (Nat.le_add_right ..))
        rw [argPtr_zero, getElem_cons_zero, hkeep, ← hlen, get_put]
      | succ i =>
        rw [argPtr_succ]
        exact hstr i (lt_of_succ_lt_succ hi)

/-- Strings that do not fit. -/
theorem pushArgs_full (hu : UserPage t n) (hn : 0 < n) {argv : List Nat} :
    ∀ (sp : Nat) (ustack : List Nat) {strs : List (List Byte)} {k : Kmem} {f : Nat → Byte},
    Holds M tf k t pt (n + 1) f → List.Forall₂ (ArgAt k) argv strs →
    (∀ a ∈ argv, a ≠ PTE2PA (t.get n)) → sp % 16 = 0 →
    sp ≤ (n + 1) * 4096 → n * 4096 ≤ sp → sp < n * 4096 + stackSize strs →
    ∃ k', pushArgs (pushArg pt (n * 4096)) argv k sp ustack = (none, k')
      ∧ Stores k {PTE2PA (t.get n)} k' := by
  induction argv with
  | nil =>
    simp_all
  | cons a argv ih =>
    intro sp ustack strs k f h hargs hapart h16 htop hle hfull
    obtain ⟨s, strs, harg, hrest, rfl⟩ := forall₂_cons_left_iff.mp hargs
    have hlen : (s ++ [0]).length = s.length + 1 := by simp
    have hround := round16_mod (s.length + 1)
    have hshort : s.length < 4096 := harg.short
    have hpages : n + 1 ≤ 2 ^ 26 - 2 := h.space.user.le
    rw [stackSize_cons] at hfull
    rw [pushArgs]
    split
    · exact ⟨k, rfl, .refl ..⟩
    rw [pushArg, harg.strlen, harg.bytes]
    rcases lt_or_ge sp (n * 4096 + round16 (s.length + 1)) with hlt | hge
    · rw [push_full h16 (by omega) (by omega) hlt]
      exact ⟨k, rfl, .refl ..⟩
    · obtain ⟨k₁, hpush, hst₁, h₁⟩ := push_fits h hu sp (s ++ [0]) h16 htop (by simp)
        (by rw [hlen]; omega)
      rw [hlen] at hpush h₁
      have hrest₁ := ArgAt.frame_all hrest fun b hb =>
        hst₁.frame b (by simpa using hapart b (mem_cons_of_mem a hb))
      obtain ⟨k', hrun, hst'⟩ := ih (sp - round16 (s.length + 1))
        ((sp - round16 (s.length + 1)) :: ustack) h₁ hrest₁
        (fun b hb => hapart b (mem_cons_of_mem a hb)) (by omega)
        (le_trans (sub_le ..) htop) (le_sub_of_add_le hge) (by omega)
      exact ⟨k', by simp only [hpush, hrun], hst₁.trans hst'⟩

variable {k : Kmem} {top : Nat} {f : Nat → Byte} {argv : List Nat} {strs : List (List Byte)}

/-- The array of pointers, as `exec` copies it out. -/
theorem ptrBytes_length (top : Nat) (strs : List (List Byte)) :
    ((argPtrs top strs ++ [0]).flatMap (leBytes 8)).length = 8 * (strs.length + 1) := by
  simp [length_flatMap]
  omega

/-- The stack of a program whose arguments fit. -/
theorem pushStack_fits (h : Holds M tf k t pt (n + 1) f) (hu : UserPage t n)
    (hargs : List.Forall₂ (ArgAt k) argv strs) (hapart : ∀ a ∈ argv, a ≠ PTE2PA (t.get n))
    (hmax : argv.length ≤ MAXARG) (htop : top = (n + 1) * 4096) (hfit : argSize strs ≤ 4096) :
    ∃ k' g, pushStack pt (n * 4096) argv k top = (some (top - argSize strs), k')
      ∧ Stores k {PTE2PA (t.get n)} k' ∧ Holds M tf k' t pt (n + 1) g
      ∧ (∀ x < n * 4096, g x = f x) ∧ ArgsLaid g top strs := by
  unfold argSize at hfit ⊢
  have hstack := stackSize_mod strs
  obtain ⟨k₁, g₁, hrun₁, hst₁, h₁, hout₁, hstr₁⟩ := pushArgs_fits hu top []
    h hargs hapart (by simpa using hmax) (by omega) (le_of_eq htop) (by omega)
  have hbytes := ptrBytes_length top strs
  obtain ⟨k', hrun', hst', h'⟩ := push_fits h₁ hu (top - stackSize strs)
    ((argPtrs top strs ++ [0]).flatMap (leBytes 8)) (by omega) (by omega)
    (by rw [hbytes]; omega) (by rw [hbytes]; omega)
  rw [hbytes, Nat.sub_sub] at hrun' h'
  have hround := le_round16 (8 * (strs.length + 1))
  refine ⟨k', _, ?_, hst₁.trans hst', h', fun x hx => ?_, fun i hi => ?_, ?_⟩
  · rw [pushStack, hrun₁]
    simp only [append_nil, length_reverse, argPtrs_length, reverse_reverse]
    rw [mul_comm _ 8]
    exact hrun'
  · rw [put_out (.inl (by omega)), hout₁ x (.inl (by omega))]
  · have hlow := le_argPtr strs i (show stackSize strs ≤ top by omega)
    rw [get_put_out (.inr (by rw [hbytes]; omega)), hstr₁ i hi]
  · have hlen : 8 * (argPtrs top strs ++ [0]).length
        = ((argPtrs top strs ++ [0]).flatMap (leBytes 8)).length := by
      rw [hbytes]
      simp
    rw [argSize, hlen, get_put]

/-- And of one whose arguments do not. -/
theorem pushStack_full (h : Holds M tf k t pt (n + 1) f) (hu : UserPage t n) (hn : 0 < n)
    (hargs : List.Forall₂ (ArgAt k) argv strs) (hapart : ∀ a ∈ argv, a ≠ PTE2PA (t.get n))
    (hmax : argv.length ≤ MAXARG) (htop : top = (n + 1) * 4096) (hfull : 4096 < argSize strs) :
    ∃ k', pushStack pt (n * 4096) argv k top = (none, k')
      ∧ Stores k {PTE2PA (t.get n)} k' := by
  unfold argSize at hfull
  have hpages : n + 1 ≤ 2 ^ 26 - 2 := h.space.user.le
  have hstack := stackSize_mod strs
  have hcount : strs.length ≤ 32 := hargs.length_eq ▸ hmax
  rcases lt_or_ge 4096 (stackSize strs) with hlt | hge
  · obtain ⟨k', hrun, hst⟩ := pushArgs_full hu hn top [] h hargs
      hapart (by omega) (le_of_eq htop) (by omega) (by omega)
    refine ⟨k', ?_, hst⟩
    rw [pushStack, hrun]
  · obtain ⟨k', g, hrun, hst, -⟩ := pushArgs_fits hu top [] h hargs
      hapart (by simpa using hmax) (by omega) (le_of_eq htop) (by omega)
    refine ⟨k', ?_, hst⟩
    rw [pushStack, hrun]
    simp only [append_nil, length_reverse, argPtrs_length]
    exact push_full (by omega) (by omega) (by omega) (by rw [mul_comm _ 8]; omega)

end Args

end Xv6.Vm
