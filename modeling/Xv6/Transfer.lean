import Mathlib

/-!
# Cells that change hands

A store of cells, some of which are free. Whoever works on the store
owns a multiset of cells. `Moves s A s' A'` says what a computation did
that owned `A` before and `A'` after: no cell appeared or vanished, and
only owned or free cells were written. These relations compose
(`Moves.trans`) and hold with any further cells owned besides
(`Moves.add`), which are untouched (`Custody.keeps`).
-/

namespace Transfer

open Function Multiset

variable {α C : Type}

structure Store (α C : Type) where
  cell : α → C
  free : List α

structure Moves (s : Store α C) (A : Multiset α) (s' : Store α C) (A' : Multiset α) : Prop where
  conserve : (s'.free : Multiset α) + A' = s.free + A
  frame : ∀ x, x ∉ A → x ∉ s.free → s'.cell x = s.cell x

/-- No cell is free or owned twice, and all of them satisfy `ok`. -/
structure Custody (ok : α → Prop) (s : Store α C) (A : Multiset α) : Prop where
  nodup : ((s.free : Multiset α) + A).Nodup
  ok : ∀ x ∈ (s.free : Multiset α) + A, ok x

variable {s s' s'' : Store α C} {A A' A'' B : Multiset α} {ok : α → Prop} {x : α}

namespace Moves

theorem refl (s : Store α C) (A : Multiset α) : Moves s A s A := ⟨rfl, fun _ _ _ => rfl⟩

/-- Only what is free or owned after can be written next. -/
theorem notMem (h : Moves s A s' A') (hA : x ∉ A) (hs : x ∉ s.free) : x ∉ A' ∧ x ∉ s'.free := by
  have hx : x ∉ (s'.free : Multiset α) + A' := by
    rw [h.conserve, mem_add, mem_coe]
    exact fun hc => hc.elim hs hA
  simp_all

theorem trans (h₁ : Moves s A s' A') (h₂ : Moves s' A' s'' A'') : Moves s A s'' A'' := by
  refine ⟨h₂.conserve.trans h₁.conserve, fun x hA hs => ?_⟩
  obtain ⟨hA', hs'⟩ := h₁.notMem hA hs
  rw [h₂.frame x hA' hs', h₁.frame x hA hs]

theorem add (h : Moves s A s' A') (B : Multiset α) : Moves s (A + B) s' (A' + B) := by
  refine ⟨?_, fun x hA hs => h.frame x (fun hc => hA (mem_add.mpr (.inl hc))) hs⟩
  rw [← add_assoc, ← add_assoc, h.conserve]

theorem add_left (h : Moves s A s' A') (B : Multiset α) : Moves s (B + A) s' (B + A') := by
  rw [add_comm B A, add_comm B A']
  exact h.add B

theorem of_eq (h : Moves s A s' A') (hA : A = B) (hA' : A' = A'') : Moves s B s' A'' := hA ▸ hA' ▸ h

/-- The first free cell becomes owned. -/
theorem alloc [DecidableEq α] {free : List α} (hfree : s.free = x :: free) (v : C) :
    Moves s 0 ⟨update s.cell x v, free⟩ {x} := by
  refine ⟨?_, fun y _ hy => update_of_ne (fun hc => hy ?_) ..⟩
  · rw [hfree, ← cons_coe, add_zero, add_comm, singleton_add]
  · grind

/-- An owned cell becomes free. -/
theorem release [DecidableEq α] (v : C) :
    Moves s {x} ⟨update s.cell x v, x :: s.free⟩ 0 := by
  refine ⟨?_, fun y hy _ => update_of_ne (fun hc => hy (mem_singleton.mpr hc)) ..⟩
  rw [add_zero, ← cons_coe, add_comm, singleton_add]

/-- An owned cell is written. -/
theorem write [DecidableEq α] (hx : x ∈ A) (v : C) :
    Moves s A ⟨update s.cell x v, s.free⟩ A :=
  ⟨rfl, fun y hy _ => update_of_ne (fun hc : y = x => hy (hc ▸ hx)) ..⟩

/-- The number of free cells grows by what is given back. -/
theorem card (h : Moves s A s' A') :
    s'.free.length + card A' = s.free.length + card A := by
  simpa using congrArg Multiset.card h.conserve

end Moves

namespace Custody

theorem moves (h : Custody ok s A) (hm : Moves s A s' A') : Custody ok s' A' := by
  refine ⟨?_, fun x hx => h.ok x ?_⟩
  · rw [hm.conserve]
    exact h.nodup
  · rwa [hm.conserve] at hx

theorem mono (h : Custody ok s A) (hle : B ≤ A) : Custody ok s B :=
  ⟨nodup_of_le (add_le_add_right hle _) h.nodup, fun x hx =>
    h.ok x (mem_of_le (add_le_add_right hle _) hx)⟩

theorem left (h : Custody ok s (A + B)) : Custody ok s A := h.mono (Multiset.le_add_right A B)

theorem right (h : Custody ok s (A + B)) : Custody ok s B := h.mono (Multiset.le_add_left B A)

theorem nodup_owned (h : Custody ok s A) : A.Nodup := (Multiset.nodup_add.mp h.nodup).2.1

theorem disjoint (h : Custody ok s (A + B)) : Disjoint A B :=
  (nodup_add.mp h.nodup_owned).2.2

theorem notMem_free (h : Custody ok s A) (hx : x ∈ A) : x ∉ s.free := fun hc =>
  disjoint_left.mp (nodup_add.mp h.nodup).2.2 hc hx

theorem notMem_left (h : Custody ok s (A + B)) (hx : x ∈ B) : x ∉ A := fun hc =>
  disjoint_left.mp h.disjoint hc hx

theorem ok_owned (h : Custody ok s A) (hx : x ∈ A) : ok x := h.ok x (Multiset.mem_add.mpr (.inr hx))

/-- Cells owned besides are untouched. -/
theorem keeps (h : Custody ok s (A + B)) (hm : Moves s A s' A') (hx : x ∈ B) :
    s'.cell x = s.cell x :=
  hm.frame x (h.notMem_left hx) (h.right.notMem_free hx)

end Custody

end Transfer
