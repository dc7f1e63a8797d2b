import Mathlib

/-!
# A shared cursor over a list

Several owners move one cursor over a list of items. A move at position
`pos` covers the items `[pos, pos + n)` and leaves the cursor after them;
it may replace them, but nothing before `pos`. Whatever the owners and
the order of their moves, the ranges follow each other, and what a move
found or left in its range is still there after all later moves
(`Trace.push`).
-/

namespace Cursor

open List

variable {ι α : Type}

/-- The `len` items from `start` on. -/
def slice (c : List α) (start len : Nat) : List α := (c.drop start).take len

/-- Lists that agree before `pos` have the same slices there. -/
theorem slice_congr {c c' : List α} {pos start len : Nat} (h : c'.take pos = c.take pos)
    (hle : start + len ≤ pos) : slice c' start len = slice c start len := by
  have hslice : ∀ l : List α, slice l start len = ((l.take pos).drop start).take len := by
    intro l
    rw [slice, drop_take, take_take, Nat.min_eq_left (by omega)]
  rw [hslice, hslice, h]

/-- The owner, the position and the items of a move. -/
structure Move (ι α : Type) where
  owner : ι
  start : Nat
  items : List α

/-- Each move starts where the one before it ended, the first at `pos`. -/
def Consecutive : Nat → List (Move ι α) → Prop
  | _, [] => True
  | pos, m :: ms => m.start = pos ∧ Consecutive (pos + m.items.length) ms

/-- The number of items moved over. -/
def total (ms : List (Move ι α)) : Nat := (ms.map fun m => m.items.length).sum

@[simp] theorem total_nil : total ([] : List (Move ι α)) = 0 := rfl

@[simp] theorem total_cons (m : Move ι α) (ms : List (Move ι α)) :
    total (m :: ms) = m.items.length + total ms := rfl

@[simp] theorem total_append (ms ms' : List (Move ι α)) :
    total (ms ++ ms') = total ms + total ms' := by
  simp [total]

theorem Consecutive.append {ms ms' : List (Move ι α)} {pos : Nat} (h : Consecutive pos ms)
    (h' : Consecutive (pos + total ms) ms') : Consecutive pos (ms ++ ms') := by
  induction ms generalizing pos with
  | nil => exact h'
  | cons m ms ih =>
    obtain ⟨hstart, hrest⟩ := h
    refine ⟨hstart, ih hrest ?_⟩
    rwa [total_cons, ← Nat.add_assoc] at h'

/-- A move lies between the first position and the last. -/
theorem Consecutive.bounds {ms : List (Move ι α)} {pos : Nat} (h : Consecutive pos ms)
    {m : Move ι α} (hm : m ∈ ms) :
    pos ≤ m.start ∧ m.start + m.items.length ≤ pos + total ms := by
  induction ms generalizing pos with
  | nil => cases hm
  | cons m' ms ih =>
    obtain ⟨hstart, hrest⟩ := h
    grind [total_cons]

/-- Consecutive moves are disjoint, the earlier one before the later. -/
theorem Consecutive.pairwise {ms : List (Move ι α)} {pos : Nat} (h : Consecutive pos ms) :
    ms.Pairwise fun m m' => m.start + m.items.length ≤ m'.start := by
  induction ms generalizing pos with
  | nil => exact .nil
  | cons m ms ih =>
    obtain ⟨hstart, hrest⟩ := h
    refine .cons (fun m' hm' => ?_) (ih hrest)
    have := (hrest.bounds hm').1
    omega

/-- The moves so far, from position `pos` to where the cursor is now, and
what they found or left is in the list. -/
structure Trace (pos : Nat) (ms : List (Move ι α)) (c : List α) (now : Nat) : Prop where
  consecutive : Consecutive pos ms
  now_eq : now = pos + total ms
  kept : ∀ m ∈ ms, slice c m.start m.items.length = m.items

theorem Trace.nil (c : List α) (pos : Nat) : Trace pos ([] : List (Move ι α)) c pos :=
  ⟨trivial, rfl, fun _ hm => nomatch hm⟩

/-- One more move. -/
theorem Trace.push {ms : List (Move ι α)} {c c' bs : List α} {pos now : Nat}
    (h : Trace pos ms c now) (owner : ι) (hbefore : c'.take now = c.take now)
    (hbs : slice c' now bs.length = bs) :
    Trace pos (ms ++ [⟨owner, now, bs⟩]) c' (now + bs.length) := by
  refine ⟨h.consecutive.append ⟨h.now_eq, trivial⟩, ?_, fun m hm => ?_⟩
  · rw [total_append, h.now_eq]
    simp [Nat.add_assoc]
  · rcases mem_append.mp hm with hm | hm
    · have hle := (h.consecutive.bounds hm).2
      rw [slice_congr hbefore (by rw [h.now_eq]; exact hle), h.kept m hm]
    · grind

/-- The items of the moves of one owner, in order. -/
def ofOwner [DecidableEq ι] (o : ι) (ms : List (Move ι α)) : List (List α) :=
  (ms.filter fun m => m.owner = o).map Move.items

@[simp] theorem ofOwner_push_self [DecidableEq ι] (o : ι) (ms : List (Move ι α)) (pos : Nat)
    (bs : List α) : ofOwner o (ms ++ [⟨o, pos, bs⟩]) = ofOwner o ms ++ [bs] := by
  simp [ofOwner]

theorem ofOwner_push_ne [DecidableEq ι] {o o' : ι} (h : o' ≠ o) (ms : List (Move ι α)) (pos : Nat)
    (bs : List α) : ofOwner o (ms ++ [⟨o', pos, bs⟩]) = ofOwner o ms := by
  simp [ofOwner, h]

end Cursor
