import Mathlib

/-!
# Ranges of a store

A store of values at numbers, read and overwritten a range at a time.
-/

namespace Ranges

open List

variable {β : Type}

/-- Overwrite the values from `a` on. -/
def put (f : Nat → β) (a : Nat) (vs : List β) : Nat → β := fun x =>
  if a ≤ x then vs.getD (x - a) (f x) else f x

/-- The `n` values from `a` on. -/
def get (f : Nat → β) (a n : Nat) : List β := (List.range n).map fun i => f (a + i)

variable {f g : Nat → β} {a b x i n : Nat} {vs ws : List β}

@[simp] theorem get_length (f : Nat → β) (a n : Nat) : (get f a n).length = n := by simp [get]

@[simp] theorem put_nil (f : Nat → β) (a : Nat) : put f a [] = f := by
  funext x
  simp [put]

theorem put_out (h : x < a ∨ a + vs.length ≤ x) : put f a vs x = f x := by
  unfold put
  grind

theorem put_in (h : i < vs.length) : put f a vs (a + i) = vs[i] := by
  simp [put, h]

/-- One range behind another. -/
theorem put_append (f : Nat → β) (a : Nat) (vs ws : List β) :
    put f a (vs ++ ws) = put (put f a vs) (a + vs.length) ws := by
  funext x
  rcases Nat.lt_or_ge x (a + vs.length) with hx | hx
  · rw [put_out (.inl hx)]
    rcases Nat.lt_or_ge x a with ha | ha
    · rw [put_out (.inl ha), put_out (.inl ha)]
    · obtain ⟨i, rfl⟩ := Nat.exists_eq_add_of_le ha
      have hi : i < vs.length := by omega
      rw [put_in hi, put_in (by rw [length_append]; omega), getElem_append_left hi]
  · obtain ⟨i, rfl⟩ := Nat.exists_eq_add_of_le hx
    rcases Nat.lt_or_ge i ws.length with hi | hi
    · have hin : vs.length + i < (vs ++ ws).length := by rw [length_append]; omega
      rw [put_in hi, Nat.add_assoc, put_in hin, getElem_append_right (Nat.le_add_right ..)]
      simp
    · grind [length_append, put_out (.inr (by omega)), put_out]

theorem get_congr (h : ∀ i < n, f (a + i) = g (a + i)) : get f a n = get g a n :=
  map_congr_left fun i hi => h i (mem_range.mp hi)

theorem get_add (f : Nat → β) (a m n : Nat) : get f a (m + n) = get f a m ++ get f (a + m) n := by
  simp [get, range_add, Function.comp_def, Nat.add_assoc]

theorem get_put (f : Nat → β) (a : Nat) (vs : List β) : get (put f a vs) a vs.length = vs := by
  refine ext_getElem (by simp) fun i _ h => ?_
  simp [get, put_in h]

theorem get_put_out (h : b + n ≤ a ∨ a + vs.length ≤ b) : get (put f a vs) b n = get f b n :=
  get_congr fun i hi => put_out (by omega)

/-- A range that holds values of `c` cells each. -/
theorem get_flatMap {γ : Type} {enc : γ → List β} {c : Nat} (hc : ∀ w, (enc w).length = c)
    {ws : List γ} : ∀ {a : Nat}, get f a (c * ws.length) = ws.flatMap enc →
    ∀ i (hi : i < ws.length), get f (a + c * i) c = enc ws[i] := by
  induction ws with
  | nil => intro a _ i hi; exact absurd hi (Nat.not_lt_zero i)
  | cons w ws ih =>
    intro a h i hi
    rw [length_cons, Nat.mul_succ, Nat.add_comm, get_add, flatMap_cons] at h
    obtain ⟨hfirst, hrest⟩ := append_inj h (by simp [hc])
    cases i with
    | zero => simpa using hfirst
    | succ i =>
      have hnext := ih hrest i (Nat.lt_of_succ_lt_succ hi)
      rw [Nat.add_assoc] at hnext
      rw [Nat.mul_succ, Nat.add_comm (c * i) c]
      exact hnext

end Ranges
