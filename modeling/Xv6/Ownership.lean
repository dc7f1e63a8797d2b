import Mathlib

/-!
# Exact ownership

Resources of a type `β` are handed out to slots of a type `ι`. The slots
own the resources in use *exactly* when each slot names a resource in
use, no two slots name the same one, and each resource in use is named
by some slot: no sharing, no dangling, no leak.

Exactness survives giving resources that are not in use to empty slots
(`Exact.assignAll`, `Exact.assign` for one slot) and emptying any set of slots while their resources go
out of use (`Exact.release`).
-/

namespace Ownership

variable {ι β : Type} {slot slot' : ι → Option β} {used used' : β → Prop}

structure Exact (slot : ι → Option β) (used : β → Prop) : Prop where
  mem : ∀ {i b}, slot i = some b → used b
  inj : ∀ {i j b}, slot i = some b → slot j = some b → i = j
  cover : ∀ {b}, used b → ∃ i, slot i = some b

theorem Exact.existsUnique (h : Exact slot used) {b : β} (hb : used b) :
    ∃! i, slot i = some b := by
  obtain ⟨i, hi⟩ := h.cover hb
  exact ⟨i, hi, fun j hj => h.inj hj hi⟩

theorem Exact.congr (h : Exact slot used) (hs : ∀ i, slot' i = slot i)
    (hu : ∀ b, used' b ↔ used b) : Exact slot' used' := by
  refine ⟨fun {i b} hi => ?_, fun {i j b} hi hj => ?_, fun {b} hb => ?_⟩
  · rw [hs] at hi
    exact (hu b).mpr (h.mem hi)
  · rw [hs] at hi hj
    exact h.inj hi hj
  · obtain ⟨i, hi⟩ := h.cover ((hu b).mp hb)
    exact ⟨i, by rw [hs]; exact hi⟩

/-- The empty slots of `S` get resources that were not in use, each its
own. -/
theorem Exact.assignAll (h : Exact slot used) {S : ι → Prop} (hS : ∀ i, S i → slot i = none)
    (hother : ∀ j, ¬S j → slot' j = slot j) (hnew : ∀ {i b}, S i → slot' i = some b → ¬used b)
    (hinj : ∀ {i j b}, S i → S j → slot' i = some b → slot' j = some b → i = j)
    (hu : ∀ c, used' c ↔ (∃ i, S i ∧ slot' i = some c) ∨ used c) : Exact slot' used' := by
  classical
  refine ⟨fun {j c} hj => ?_, fun {j k c} hj hk => ?_, fun {c} hc => ?_⟩
  · by_cases hSj : S j
    · exact (hu c).mpr (.inl ⟨j, hSj, hj⟩)
    · rw [hother j hSj] at hj
      exact (hu c).mpr (.inr (h.mem hj))
  · by_cases hSj : S j <;> by_cases hSk : S k
    · exact hinj hSj hSk hj hk
    · rw [hother k hSk] at hk
      exact absurd (h.mem hk) (hnew hSj hj)
    · rw [hother j hSj] at hj
      exact absurd (h.mem hj) (hnew hSk hk)
    · rw [hother j hSj] at hj
      rw [hother k hSk] at hk
      exact h.inj hj hk
  · rcases (hu c).mp hc with ⟨i, -, hi⟩ | hc
    · exact ⟨i, hi⟩
    · obtain ⟨j, hj⟩ := h.cover hc
      grind

/-- An empty slot gets a resource that was not in use. -/
theorem Exact.assign (h : Exact slot used) {i : ι} {b : β} (hi : slot i = none) (hb : ¬used b)
    (hself : slot' i = some b) (hother : ∀ j ≠ i, slot' j = slot j)
    (hu : ∀ c, used' c ↔ c = b ∨ used c) : Exact slot' used' := by
  have hval : ∀ {j c}, j = i → slot' j = some c → c = b := by grind
  refine h.assignAll (S := (· = i)) (fun j hj => hj ▸ hi) hother
    (fun hj hc => by rw [hval hj hc]; exact hb) (fun hj hk _ _ => hj.trans hk.symm) fun c => ?_
  rw [hu c]
  exact or_congr_left ⟨fun hc => ⟨i, rfl, hc ▸ hself⟩, fun ⟨_, hj, hc⟩ => hval hj hc⟩

/-- The slots of `S` are emptied and what they named goes out of use. -/
theorem Exact.release (h : Exact slot used) {S : ι → Prop} (hS : ∀ j, S j → slot' j = none)
    (hother : ∀ j, ¬S j → slot' j = slot j)
    (hu : ∀ c, used' c ↔ used c ∧ ∀ j, S j → slot j ≠ some c) : Exact slot' used' := by
  classical
  have hcases : ∀ {j c}, slot' j = some c → ¬S j ∧ slot j = some c := by grind
  refine ⟨fun {j c} hj => ?_, fun {j k c} hj hk => ?_, fun {c} hc => ?_⟩
  · obtain ⟨hn, hj⟩ := hcases hj
    exact (hu c).mpr ⟨h.mem hj, fun k hk hkc => hn (h.inj hkc hj ▸ hk)⟩
  · exact h.inj (hcases hj).2 (hcases hk).2
  · obtain ⟨hc, hno⟩ := (hu c).mp hc
    obtain ⟨j, hj⟩ := h.cover hc
    grind

end Ownership
