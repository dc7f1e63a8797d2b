import Mathlib

/-!
# Ring buffers with free-running counters

`cap` slots and two counters modulo `W` that are never reset: a put goes
to slot `wr % cap`, a take comes from slot `rd % cap`. When `cap` divides
`W` the slots in use follow each other across the wrap of the counters,
and the ring is the queue of the elements put and not yet taken. A put
is two steps, `store` and `publish`.
-/

structure RingQueue (α : Type) (cap W : Nat) where
  slot : Fin cap → α
  rd : Nat
  wr : Nat

namespace RingQueue

open List Nat

variable {α : Type} {cap W : Nat} [NeZero cap] {r : RingQueue α cap W}

def take (r : RingQueue α cap W) : RingQueue α cap W := { r with rd := (r.rd + 1) % W }

/-- What counter value `i` refers to. -/
def cell (r : RingQueue α cap W) (i : Nat) : α := r.slot (Fin.ofNat cap i)

/-- The elements in use, as the counters say. -/
def count (r : RingQueue α cap W) : Nat := (r.wr + W - r.rd) % W

/-- The elements in use, the oldest first. -/
def queue (r : RingQueue α cap W) : List α := (List.range r.count).map fun j => r.cell (r.rd + j)

/-- The counters are numbers modulo `W`. -/
structure Wf (r : RingQueue α cap W) : Prop where
  rd_lt : r.rd < W
  wr_lt : r.wr < W

@[simp] theorem length_queue (r : RingQueue α cap W) : r.queue.length = r.count := by simp [queue]

omit [NeZero cap] in
theorem count_eq_zero (h : r.Wf) : r.count = 0 ↔ r.rd = r.wr := by
  obtain ⟨h1, h2⟩ := h
  unfold count
  constructor
  · intro h0
    rcases lt_or_ge r.wr r.rd with hlt | hge
    · rw [mod_eq_of_lt (by omega)] at h0
      omega
    · have hsum : r.wr + W - r.rd = r.wr - r.rd + W := by omega
      rw [hsum, add_mod_right, mod_eq_of_lt (by omega)] at h0
      omega
  · simp_all

theorem queue_eq_nil (h : r.Wf) (heq : r.rd = r.wr) : r.queue = [] :=
  eq_nil_of_length_eq_zero ((length_queue r).trans ((count_eq_zero h).mpr heq))

omit [NeZero cap] in
theorem count_lt (h : r.Wf) : r.count < W := Nat.mod_lt _ (Nat.lt_of_le_of_lt (Nat.zero_le _) h.rd_lt)

omit [NeZero cap] in
/-- The counters differ by the count. -/
theorem wr_eq (h : r.Wf) : r.wr = (r.rd + r.count) % W := by
  obtain ⟨h1, h2⟩ := h
  unfold count
  rcases lt_or_ge r.wr r.rd with hlt | hge
  · rw [mod_eq_of_lt (show r.wr + W - r.rd < W by omega),
      show r.rd + (r.wr + W - r.rd) = r.wr + W by omega, add_mod_right, mod_eq_of_lt h2]
  · rw [show r.wr + W - r.rd = r.wr - r.rd + W by omega, add_mod_right,
      mod_eq_of_lt (show r.wr - r.rd < W by omega), show r.rd + (r.wr - r.rd) = r.wr by omega,
      mod_eq_of_lt h2]

omit [NeZero cap] in
/-- A count is determined by the counters. -/
theorem count_of_wr {c : Nat} (hrd : r.rd < W) (hc : c < W) (h : r.wr = (r.rd + c) % W) :
    r.count = c := by
  unfold count
  rw [h]
  rcases lt_or_ge (r.rd + c) W with hlt | hge
  · rw [mod_eq_of_lt hlt, show r.rd + c + W - r.rd = c + W by omega, add_mod_right,
      mod_eq_of_lt hc]
  · have hmod : (r.rd + c) % W = r.rd + c - W := by
      rw [show r.rd + c = r.rd + c - W + W by omega, add_mod_right, mod_eq_of_lt (by omega)]
      omega
    simp_all [hmod, mod_eq_of_lt hc]

omit [NeZero cap] in
theorem take_wf (h : r.Wf) : r.take.Wf :=
  ⟨mod_lt _ (lt_of_le_of_lt (zero_le _) h.rd_lt), h.wr_lt⟩

omit [NeZero cap] in
theorem count_take (h : r.Wf) (hne : r.count ≠ 0) : r.take.count = r.count - 1 := by
  have hlt := count_lt h
  refine count_of_wr (take_wf h).rd_lt (by omega) ?_
  show r.wr = ((r.rd + 1) % W + (r.count - 1)) % W
  rw [mod_add_mod, show r.rd + 1 + (r.count - 1) = r.rd + r.count by omega]
  exact wr_eq h

/-- Counter values that agree modulo `W` refer to the same slot. -/
theorem cell_mod (hdvd : cap ∣ W) (i : Nat) : r.cell (i % W) = r.cell i := by
  unfold cell
  congr 1
  exact Fin.ext (mod_mod_of_dvd i hdvd)

/-! ### A put in two steps

Where the other side reads the ring at any time, the slot is stored first
and the counter moves after: until then the queue is what it was. -/

def store (r : RingQueue α cap W) (a : α) : RingQueue α cap W :=
  { r with slot := Function.update r.slot (Fin.ofNat cap r.wr) a }

def publish (r : RingQueue α cap W) : RingQueue α cap W := { r with wr := (r.wr + 1) % W }

theorem cell_store_self (a : α) : (r.store a).cell r.wr = a := Function.update_self ..

theorem cell_store_of_ne (a : α) {i : Nat} (h : i % cap ≠ r.wr % cap) :
    (r.store a).cell i = r.cell i :=
  Function.update_of_ne (fun hc => h (congrArg Fin.val hc)) ..

/-- With room left, the slot stored is none of those in use. -/
theorem queue_store (h : r.Wf) (hdvd : cap ∣ W) (hroom : r.count < cap) (a : α) :
    (r.store a).queue = r.queue := by
  have hwr : r.wr % cap = (r.rd + r.count) % cap := by
    rw [wr_eq h, mod_mod_of_dvd _ hdvd]
  refine map_congr_left fun j hj => ?_
  have hj : j < r.count := mem_range.mp hj
  refine cell_store_of_ne a fun hc => ?_
  rw [hwr] at hc
  have hmod : j % cap = r.count % cap := Nat.ModEq.add_left_cancel' r.rd hc
  rw [mod_eq_of_lt (by omega), mod_eq_of_lt hroom] at hmod
  omega

omit [NeZero cap] in
theorem publish_wf (h : r.Wf) : r.publish.Wf :=
  ⟨h.rd_lt, mod_lt _ (lt_of_le_of_lt (zero_le _) h.rd_lt)⟩

omit [NeZero cap] in
theorem count_publish (h : r.Wf) (hroom : r.count + 1 < W) : r.publish.count = r.count + 1 := by
  refine count_of_wr h.rd_lt hroom ?_
  show (r.wr + 1) % W = (r.rd + (r.count + 1)) % W
  rw [wr_eq h, mod_add_mod, add_assoc]

/-- The slot the counter passes over is appended. -/
theorem queue_publish (h : r.Wf) (hdvd : cap ∣ W) (hroom : r.count + 1 < W) :
    r.publish.queue = r.queue ++ [r.cell r.wr] := by
  rw [queue, count_publish h hroom, range_succ, map_append, map_singleton]
  refine congrArg₂ (· ++ ·) rfl ?_
  show [r.cell (r.rd + r.count)] = [r.cell r.wr]
  rw [← cell_mod hdvd (r.rd + r.count), ← wr_eq h]

/-- A take removes the oldest element. -/
theorem queue_take (h : r.Wf) (hdvd : cap ∣ W) (hne : r.count ≠ 0) :
    r.queue = r.cell r.rd :: r.take.queue := by
  have hcount : r.count = r.take.count + 1 := by rw [count_take h hne]; omega
  rw [queue, hcount, range_succ_eq_map, map_cons, map_map, add_zero, queue]
  refine congrArg _ (map_congr_left fun j _ => ?_)
  show r.cell (r.rd + (j + 1)) = r.cell ((r.rd + 1) % W + j)
  rw [← cell_mod hdvd ((r.rd + 1) % W + j), mod_add_mod, cell_mod hdvd, add_assoc,
    add_comm 1 j]

/-! ### Parts of a ring

Two counters within a ring cut it in two rings over the same slots. -/

omit [NeZero cap] in
theorem count_append {slot : Fin cap → α} {a b c : Nat} (ha : a < W) (hb : b < W) (hc : c < W)
    (h : (⟨slot, a, b⟩ : RingQueue α cap W).count + (⟨slot, b, c⟩ : RingQueue α cap W).count < W) :
    (⟨slot, a, c⟩ : RingQueue α cap W).count
      = (⟨slot, a, b⟩ : RingQueue α cap W).count + (⟨slot, b, c⟩ : RingQueue α cap W).count := by
  have hab : b = (a + (⟨slot, a, b⟩ : RingQueue α cap W).count) % W := wr_eq (r := ⟨slot, a, b⟩) ⟨ha, hb⟩
  have hbc : c = (b + (⟨slot, b, c⟩ : RingQueue α cap W).count) % W := wr_eq (r := ⟨slot, b, c⟩) ⟨hb, hc⟩
  refine count_of_wr ha h ?_
  show c = (a + (_ + _)) % W
  rw [← add_assoc, ← mod_add_mod, ← hab]
  exact hbc

theorem queue_append {slot : Fin cap → α} {a b c : Nat} (hdvd : cap ∣ W) (ha : a < W) (hb : b < W) (hc : c < W)
    (h : (⟨slot, a, b⟩ : RingQueue α cap W).count + (⟨slot, b, c⟩ : RingQueue α cap W).count < W) :
    (⟨slot, a, c⟩ : RingQueue α cap W).queue
      = (⟨slot, a, b⟩ : RingQueue α cap W).queue ++ (⟨slot, b, c⟩ : RingQueue α cap W).queue := by
  have hab : b = (a + (⟨slot, a, b⟩ : RingQueue α cap W).count) % W := wr_eq (r := ⟨slot, a, b⟩) ⟨ha, hb⟩
  rw [queue, count_append ha hb hc h, range_add, map_append, map_map]
  refine congrArg₂ (· ++ ·) rfl (map_congr_left fun j _ => ?_)
  show (⟨slot, a, c⟩ : RingQueue α cap W).cell (a + (_ + j)) = (⟨slot, a, c⟩ : RingQueue α cap W).cell (b + j)
  rw [← cell_mod hdvd (a + _), ← cell_mod hdvd (b + j), ← add_assoc, ← mod_add_mod, ← hab]

/-- The newest element is taken back. -/
def unput (r : RingQueue α cap W) : RingQueue α cap W := { r with wr := (r.wr + (W - 1)) % W }

omit [NeZero cap] in
theorem unput_publish (h : r.Wf) : r.unput.publish = r := by
  have hwr := h.wr_lt
  have hback : ((r.wr + (W - 1)) % W + 1) % W = r.wr := by
    rw [Nat.mod_add_mod, Nat.add_assoc, Nat.sub_add_cancel (by omega), Nat.add_mod_right, Nat.mod_eq_of_lt hwr]
  show (⟨r.slot, r.rd, ((r.wr + (W - 1)) % W + 1) % W⟩ : RingQueue α cap W) = r
  rw [hback]

omit [NeZero cap] in
theorem unput_wf (h : r.Wf) : r.unput.Wf :=
  ⟨h.rd_lt, mod_lt _ (lt_of_le_of_lt (zero_le _) h.rd_lt)⟩

omit [NeZero cap] in
theorem count_unput (h : r.Wf) (hne : r.count ≠ 0) : r.unput.count + 1 = r.count := by
  have hlt := count_lt h
  have hrd := h.rd_lt
  rw [count_of_wr (r := r.unput) (c := r.count - 1) hrd (by omega) ?_]
  · omega
  · show (r.wr + (W - 1)) % W = (r.rd + (r.count - 1)) % W
    have hwr := wr_eq h
    rw [hwr, mod_add_mod, show r.rd + r.count + (W - 1) = r.rd + (r.count - 1) + W by omega, add_mod_right]

theorem queue_unput (h : r.Wf) (hdvd : cap ∣ W) (hne : r.count ≠ 0) :
    r.queue = r.unput.queue ++ [r.cell r.unput.wr] := by
  have hlt := count_lt h
  have hcount := count_unput h hne
  have hpub := queue_publish (unput_wf h) hdvd (by omega)
  rw [unput_publish h] at hpub
  exact hpub

end RingQueue
