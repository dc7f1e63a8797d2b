import Mathlib

/-!
# Postconditions of computations that may fail

`Ends Q E r`: the result `r` is a value that satisfies `Q` or an error
that satisfies `E`. The rules follow the shape of a `do` block.
-/

variable {ε α β : Type}

def Ends (Q : α → Prop) (E : ε → Prop) : Except ε α → Prop
  | .ok a => Q a
  | .error e => E e

namespace Ends

variable {Q : α → Prop} {R : β → Prop} {E : ε → Prop}

theorem ok {a : α} (h : Q a) : Ends Q E (.ok a) := h

theorem error {e : ε} (h : E e) : Ends Q E (.error e) := h

variable {r : Except ε α}

theorem mono {Q' : α → Prop} (h : Ends Q E r) (hQ : ∀ a, Q a → Q' a) : Ends Q' E r := by
  cases r with
  | ok a => exact hQ a h
  | error e => exact h

/-- A postcondition that is known where the computation succeeds. -/
theorem with_ok {Q' : α → Prop} (h : Ends Q E r) (hQ : ∀ a, r = .ok a → Q' a) : Ends Q' E r := by
  cases r with
  | ok a => exact hQ a rfl
  | error e => exact h

theorem bind {f : α → Except ε β} (h : Ends Q E r) (hf : ∀ a, Q a → Ends R E (f a)) :
    Ends R E (r >>= f) := by
  cases r with
  | ok a => exact hf a h
  | error e => exact h

theorem ok_bind (a : α) (f : α → Except ε β) : ((Except.ok a : Except ε α) >>= f) = f a := rfl

/-- A sequence that succeeds, taken apart. -/
theorem bind_ok {f : α → Except ε β} {b : β} (h : r >>= f = .ok b) :
    ∃ a, r = .ok a ∧ f a = .ok b := by
  cases r with
  | ok a => exact ⟨a, rfl, h⟩
  | error e => cases h

theorem of_ok {a : α} (h : Ends Q E r) (hr : r = .ok a) : Q a := by
  rw [hr] at h
  exact h

theorem of_error {e : ε} (h : Ends Q E r) (hr : r = .error e) : E e := by
  rw [hr] at h
  exact h

end Ends
