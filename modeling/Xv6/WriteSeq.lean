import Mathlib

/-!
# Sequences of writes and their prefixes

A store is a function from addresses to values; a program that writes
it is summarised by the list of writes it issues, in order. A crash
keeps a prefix of that list (`crashed`): each write is atomic and writes
take effect in issue order.

Replaying writes with distinct targets fixes each target
(`applyWrites_mem`) and leaves the rest alone (`applyWrites_not_target`).
-/

namespace WriteSeq

open List

variable {α β : Type} [DecidableEq α]

/-- Apply the writes in order. -/
def applyWrites : (α → β) → List (α × β) → (α → β)
  | d, [] => d
  | d, w :: ws => applyWrites (Function.update d w.1 w.2) ws

/-- The store after a crash that let only the first `k` writes through. -/
def crashed (d : α → β) (ws : List (α × β)) (k : Nat) : α → β :=
  applyWrites d (ws.take k)

@[simp] theorem applyWrites_nil (d : α → β) : applyWrites d [] = d := rfl

@[simp] theorem applyWrites_cons (d : α → β) (w : α × β) (ws : List (α × β)) :
    applyWrites d (w :: ws) = applyWrites (Function.update d w.1 w.2) ws := rfl

theorem applyWrites_append (d : α → β) (ws vs : List (α × β)) :
    applyWrites d (ws ++ vs) = applyWrites (applyWrites d ws) vs := by
  induction ws generalizing d with
  | nil => rfl
  | cons w ws ih => exact ih _

/-- An address no write targets keeps its value. -/
theorem applyWrites_not_target {ws : List (α × β)} {a : α} :
    ∀ {d : α → β}, a ∉ ws.map Prod.fst → applyWrites d ws a = d a := by
  induction ws with
  | nil => intro d _; rfl
  | cons w ws ih =>
    simp_all

/-- With distinct targets every write survives to the end. -/
theorem applyWrites_mem {ws : List (α × β)} (hnd : (ws.map Prod.fst).Nodup) :
    ∀ {d : α → β} {w : α × β}, w ∈ ws → applyWrites d ws w.1 = w.2 := by
  induction ws with
  | nil => intro d w hw; cases hw
  | cons v ws ih =>
    intro d w hw
    rw [map_cons, nodup_cons] at hnd
    rcases mem_cons.mp hw with rfl | hw'
    · rw [applyWrites_cons, applyWrites_not_target hnd.1, Function.update_self]
    · exact ih hnd.2 hw'

end WriteSeq
