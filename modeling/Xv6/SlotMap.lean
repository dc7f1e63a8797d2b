import Mathlib

/-!
# Finite maps kept in slots

A list of slots, each empty or with a key and a value, is searched from
the front. As long as no key is in two slots it stands for a finite map:
a key entered in an empty slot, or a slot cleared, changes the map at
that key and nowhere else.
-/

namespace SlotMap

open List Option Nat

variable {α κ ν : Type}

/-! ## One slot -/

/-- Write slot `k`, or append a slot. -/
def put (l : List α) (k : Nat) (a : α) : List α := if k < l.length then l.set k a else l ++ [a]

theorem getElem?_put {l : List α} {k : Nat} (hk : k ≤ l.length) (a : α) (j : Nat) :
    (put l k a)[j]? = if j = k then some a else l[j]? := by
  unfold put
  rcases lt_or_ge k l.length with hlt | hge
  · grind
  · grind

/-! ## Slots with keys -/

/-- The first empty slot; the length of the list if there is none. -/
def free (l : List (Option (κ × ν))) : Nat := l.findIdx Option.isNone

/-- No key is in two slots. -/
def Unique (l : List (Option (κ × ν))) : Prop :=
  ∀ (j k : Nat) (key : κ) (v w : ν), l[j]? = some (some (key, v)) → l[k]? = some (some (key, w)) → j = k

/-- Slot `k` is empty, or the next one to append. -/
def Vacant (l : List (Option (κ × ν))) (k : Nat) : Prop := k ≤ l.length ∧ l[k]?.join = none

section Slots

variable {l : List (Option (κ × ν))} {k : Nat} {key : κ} {v : ν}

theorem free_lt_iff :
    free l < l.length ↔ ∃ k : Nat, l[k]? = some none := by
  constructor
  · intro hlt
    have hnone : (l.get ⟨free l, hlt⟩).isNone = true := findIdx_getElem (w := hlt)
    exact ⟨free l, by rw [getElem?_eq_getElem hlt]; exact congrArg some (isNone_iff_eq_none.mp hnone)⟩
  · rintro ⟨k, hk⟩
    exact findIdx_lt_length_of_exists ⟨none, mem_of_getElem? hk, rfl⟩

theorem vacant_free (l : List (Option (κ × ν))) : Vacant l (free l) := by
  refine ⟨findIdx_le_length, ?_⟩
  rcases lt_or_ge (free l) l.length with hlt | hge
  · have hnone : (l.get ⟨free l, hlt⟩).isNone = true := findIdx_getElem (w := hlt)
    simp_all
  · rw [getElem?_eq_none hge]
    rfl

theorem getElem?_put_some (hk : k ≤ l.length) {s : Option (κ × ν)} {j : Nat} {w : ν}
    (h : (put l k s)[j]? = some (some (key, w))) :
    j = k ∧ s = some (key, w) ∨ j ≠ k ∧ l[j]? = some (some (key, w)) := by
  rw [getElem?_put hk] at h
  rcases eq_or_ne j k with rfl | hne
  · grind
  · grind

theorem Unique.clear (h : Unique l) (hk : k ≤ l.length) : Unique (put l k none) := by
  intro i j key u w hi hj
  rcases getElem?_put_some hk hi with ⟨-, hi⟩ | ⟨-, hi⟩
  · cases hi
  · rcases getElem?_put_some hk hj with ⟨-, hj⟩ | ⟨-, hj⟩
    · cases hj
    · exact h i j key u w hi hj

end Slots

/-! ## The map -/

variable [DecidableEq κ]

/-- The slot holds the key. -/
def holds (key : κ) (s : Option (κ × ν)) : Bool := s.any (·.1 = key)

/-- The first slot with the key, and its value. -/
def find (l : List (Option (κ × ν))) (key : κ) : Option (Nat × ν) :=
  l[l.findIdx (holds key)]?.join.map fun x => (l.findIdx (holds key), x.2)

section Map

variable {l : List (Option (κ × ν))} {k : Nat} {key key' : κ} {v : ν}

theorem holds_iff {s : Option (κ × ν)} : holds key s = true ↔ ∃ v, s = some (key, v) := by
  rcases s with _ | ⟨key', v⟩
  · simp [holds]
  · simp [holds, eq_comm]

/-- The search ends at a slot with the key or at the end of the list. -/
theorem findIdx_holds (l : List (Option (κ × ν))) (key : κ) :
    (∃ v, l[l.findIdx (holds key)]? = some (some (key, v)))
      ∨ l[l.findIdx (holds key)]? = none ∧ ∀ s ∈ l, holds key s = false := by
  rcases lt_or_ge (l.findIdx (holds key)) l.length with hlt | hge
  · obtain ⟨v, hv⟩ := holds_iff.mp (findIdx_getElem (w := hlt))
    grind
  · grind

theorem find_some (h : find l key = some (k, v)) : l[k]? = some (some (key, v)) := by
  unfold find at h
  rcases findIdx_holds l key with ⟨w, hw⟩ | ⟨hnone, -⟩
  · grind
  · rw [hnone] at h
    cases h

theorem find_eq_none : find l key = none ↔ ∀ (k : Nat) (v : ν), l[k]? ≠ some (some (key, v)) := by
  constructor
  · intro h k v hk
    rcases findIdx_holds l key with ⟨w, hw⟩ | ⟨-, hno⟩
    · rw [find, hw] at h
      cases h
    · have hfalse := hno _ (mem_of_getElem? hk)
      rw [holds_iff.mpr ⟨v, rfl⟩] at hfalse
      cases hfalse
  · intro h
    rcases findIdx_holds l key with ⟨w, hw⟩ | ⟨hnone, -⟩
    · exact absurd hw (h _ w)
    · rw [find, hnone]
      rfl

/-- With no key twice, a slot with the key is the one that is found. -/
theorem Unique.find_eq_some (h : Unique l) :
    find l key = some (k, v) ↔ l[k]? = some (some (key, v)) := by
  refine ⟨find_some, fun hk => ?_⟩
  cases hf : find l key with
  | none => exact absurd hk (find_eq_none.mp hf k v)
  | some x =>
    have hj := find_some hf
    obtain rfl := h x.1 k key x.2 v hj hk
    rw [hj] at hk
    obtain ⟨-, rfl⟩ := Prod.mk.inj (some.inj (some.inj hk))
    rfl

/-! ## Entering and clearing -/

theorem Unique.enter (h : Unique l) (hv : Vacant l k) (hnew : find l key = none) (v : ν) :
    Unique (put l k (some (key, v))) := by
  intro i j key' u w hi hj
  rcases getElem?_put_some hv.1 hi with ⟨rfl, hi'⟩ | ⟨-, hi'⟩
  · rcases getElem?_put_some hv.1 hj with ⟨rfl, -⟩ | ⟨-, hj'⟩
    · rfl
    · obtain ⟨rfl, -⟩ := Prod.mk.inj (some.inj hi')
      exact absurd hj' (find_eq_none.mp hnew j w)
  · rcases getElem?_put_some hv.1 hj with ⟨rfl, hj'⟩ | ⟨-, hj'⟩
    · obtain ⟨rfl, -⟩ := Prod.mk.inj (some.inj hj')
      exact absurd hi' (find_eq_none.mp hnew i u)
    · exact h i j key' u w hi' hj'

end Map

end SlotMap
