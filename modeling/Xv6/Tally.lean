import Mathlib

/-!
# Counting with point updates

Sums over a finite index set, and how many indices a partial function
sends to a given value. Each lemma says what changing the function at
one index does; the two sides are kept as sums, so that no subtraction
appears.
-/

namespace Tally

open Finset

section Sum

variable {ι : Type} [DecidableEq ι]

/-- A sum after a change at one index. -/
theorem sum_off {s : Finset ι} {f g : ι → Nat} {i : ι} (hi : i ∈ s) (h : ∀ j ≠ i, g j = f j) :
    ∑ j ∈ s, g j + f i = ∑ j ∈ s, f j + g i := by
  have herase : ∑ j ∈ s.erase i, g j = ∑ j ∈ s.erase i, f j :=
    sum_congr rfl fun j hj => h j (ne_of_mem_erase hj)
  have hf := add_sum_erase s f hi
  have hg := add_sum_erase s g hi
  omega

/-- Two different indices bound a sum from below. -/
theorem add_le_sum {s : Finset ι} {f : ι → Nat} {i j : ι} (hi : i ∈ s) (hj : j ∈ s) (hij : j ≠ i) :
    f i + f j ≤ ∑ l ∈ s, f l := by
  have hf := add_sum_erase s f hi
  have hle : f j ≤ ∑ l ∈ s.erase i, f l :=
    single_le_sum (fun _ _ => Nat.zero_le _) (mem_erase.mpr ⟨hij, hj⟩)
  omega

end Sum

section Tally

variable {ι α : Type} [Fintype ι] [DecidableEq α]

/-- How many indices `f` sends to `a`. -/
def tally (f : ι → Option α) (a : α) : Nat := (Finset.univ.filter fun i => f i = some a).card

variable {f : ι → Option α} {a : α}

theorem tally_pos : 0 < tally f a ↔ ∃ i, f i = some a := by
  rw [tally, card_pos]
  constructor
  · grind
  · rintro ⟨i, hi⟩
    exact ⟨i, mem_filter.mpr ⟨mem_univ i, hi⟩⟩

theorem tally_eq_zero (h : ∀ i, f i ≠ some a) : tally f a = 0 :=
  Nat.eq_zero_of_not_pos fun hpos => by
    obtain ⟨i, hi⟩ := tally_pos.mp hpos
    exact h i hi

theorem tally_update [DecidableEq ι] (f : ι → Option α) (i : ι) (v : Option α) (a : α) :
    tally (Function.update f i v) a + (if f i = some a then 1 else 0)
      = tally f a + if v = some a then 1 else 0 := by
  unfold tally
  rw [card_filter, card_filter]
  have := sum_off (s := univ) (f := fun j => if f j = some a then 1 else 0)
    (g := fun j => if Function.update f i v j = some a then 1 else 0) (mem_univ i)
    fun j hj => by rw [Function.update_of_ne hj]
  simpa only [Function.update_self] using this

end Tally

end Tally
