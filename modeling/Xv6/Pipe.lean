import Xv6.FsInode
import Xv6.RingQueue

/-!
# Pipes

`struct pipe` and one call of `piperead`, from the reader's side. The
call holds `pi->lock` except while it sleeps, so it is a function of the
pipe as it finds it and of the pipes it finds each time it is woken
(`wakes`); what other processes do in between is in those.

The copy to user memory comes after `nread++`. A byte whose copy fails
is taken out of the ring and delivered to nobody, so a read delivers
what it consumes exactly when no copy fails.
-/

namespace Xv6

open List Nat

open ByteVec (Byte)

abbrev PIPESIZE : Nat := 512

/-- `struct pipe` without its lock. -/
structure Pipe where
  data : Fin PIPESIZE → Byte
  nread : UInt32
  nwrite : UInt32
  readopen : Bool
  writeopen : Bool

namespace Pipe

/-- `pi->data[pi->nwrite++ % PIPESIZE] = ch`. -/
def put (pi : Pipe) (ch : Byte) : Pipe :=
  { pi with
    data := Function.update pi.data (Fin.ofNat PIPESIZE pi.nwrite.toNat) ch
    nwrite := pi.nwrite + 1 }

/-- `ch = pi->data[pi->nread++ % PIPESIZE]`: the byte. -/
def next (pi : Pipe) : Byte := pi.data (Fin.ofNat PIPESIZE pi.nread.toNat)

/-- And the pipe after it. -/
def take (pi : Pipe) : Pipe := { pi with nread := pi.nread + 1 }

/-- The buffer with its counters. -/
def ring (pi : Pipe) : RingQueue Byte PIPESIZE (2 ^ 32) :=
  ⟨pi.data, pi.nread.toNat, pi.nwrite.toNat⟩

/-- The bytes put in and not yet taken, the oldest first. -/
def buffered (pi : Pipe) : List Byte := pi.ring.queue

theorem ring_wf (pi : Pipe) : pi.ring.Wf := ⟨pi.nread.toNat_lt, pi.nwrite.toNat_lt⟩

theorem ring_take (pi : Pipe) : pi.take.ring = pi.ring.take := by
  simp [ring, take, RingQueue.take]

theorem nread_take (pi : Pipe) : pi.take.nread.toNat = (pi.nread.toNat + 1) % 2 ^ 32 :=
  UInt32.toNat_add ..

theorem buffered_eq_nil (pi : Pipe) : pi.buffered = [] ↔ pi.nread = pi.nwrite := by
  rw [buffered, ← length_eq_zero_iff, RingQueue.length_queue,
    RingQueue.count_eq_zero pi.ring_wf]
  exact UInt32.toNat_inj

theorem buffered_take {pi : Pipe} (hne : pi.nread ≠ pi.nwrite) :
    pi.buffered = pi.next :: pi.take.buffered := by
  have hcount : pi.ring.count ≠ 0 := by
    rw [Ne, RingQueue.count_eq_zero pi.ring_wf]
    exact fun heq => hne (UInt32.toNat_inj.mp heq)
  rw [buffered, RingQueue.queue_take pi.ring_wf (by decide) hcount, buffered, ring_take]
  rfl

theorem length_take {pi : Pipe} (hne : pi.nread ≠ pi.nwrite) :
    pi.buffered.length = pi.take.buffered.length + 1 := by
  rw [buffered_take hne, length_cons]

end Pipe

/-! ## `piperead` -/

/-- The copying loop of `piperead` for `n` more bytes, at index `i`:
the index it stops at, the bytes it stores, and the pipe. -/
def pipereadLoop (dst : Target) : Nat → Nat → Pipe → Nat × List Byte × Pipe
  | 0, i, pi => (i, [], pi)
  | n + 1, i, pi =>
      if pi.nread = pi.nwrite then (i, [], pi)
      else if dst i = true then
        let (j, out, pi') := pipereadLoop dst n (i + 1) pi.take
        (j, pi.next :: out, pi')
      else (i, [], pi.take)

/-- The waiting loop of `piperead`: still asleep (`none`), killed
(`some none`), or the pipe it goes on with. Each element of `wakes` is
what the reader finds when it has the lock again. -/
def pipereadWait : List (Pipe × Bool) → Pipe → Bool → Option (Option Pipe)
  | wakes, pi, killed =>
      if pi.nread = pi.nwrite ∧ pi.writeopen = true then
        if killed then some none
        else
          match wakes with
          | [] => none
          | (pi', killed') :: wakes => pipereadWait wakes pi' killed'
      else some (some pi)

/-- `piperead`: the result, the bytes stored at `addr` and the pipe it
leaves; nothing while it sleeps, and no pipe when it was killed. -/
def piperead (dst : Target) (n : Int) (wakes : List (Pipe × Bool)) (pi : Pipe) (killed : Bool) :
    Option (Int × List Byte × Option Pipe) :=
  (pipereadWait wakes pi killed).map fun
    | none => (-1, [], none)
    | some pi =>
        let (i, out, pi) := pipereadLoop dst n.toNat 0 pi
        (i, out, some pi)

/-! ## What a read consumes and what it delivers -/

/-- A read of `i` bytes that consumes what it delivers: `nread` moves by
`i`, the bytes stored are the `i` oldest, and what is left in the pipe
goes on with the next one. -/
structure Pipe.Delivers (pi : Pipe) (i : Int) (out : List Byte) (pi' : Pipe) : Prop where
  nread : (pi'.nread.toNat : Int) = (pi.nread.toNat + i) % 2 ^ 32
  out : out = pi.buffered.take i.toNat
  left : pi'.buffered = pi.buffered.drop i.toNat

/-- The copying loop when no copy fails: it moves the oldest bytes from
the pipe to `out`. -/
theorem pipereadLoop_mapped {dst : Target} (n : Nat) : ∀ (i : Nat) (pi : Pipe),
    (∀ j < min n pi.buffered.length, dst (i + j) = true) →
    ∃ pi', pipereadLoop dst n i pi
        = (i + min n pi.buffered.length, pi.buffered.take n, pi') ∧
      pi'.nread.toNat = (pi.nread.toNat + min n pi.buffered.length) % 2 ^ 32 ∧
      pi'.buffered = pi.buffered.drop n := by
  induction n with
  | zero =>
    simp [pipereadLoop]
  | succ n ih =>
    intro i pi hdst
    by_cases hne : pi.nread = pi.nwrite
    · have hnil := (Pipe.buffered_eq_nil pi).mpr hne
      simp [pipereadLoop, hne, hnil]
    · have hlen := Pipe.length_take hne
      have h0 : dst i = true := hdst 0 (by omega)
      obtain ⟨pi', hrun, hread, hleft⟩ := ih (i + 1) pi.take fun j hj => by
        rw [show i + 1 + j = i + (j + 1) by omega]
        exact hdst (j + 1) (by omega)
      refine ⟨pi', ?_, ?_, ?_⟩
      · rw [pipereadLoop, if_neg hne, if_pos h0, hrun, hlen, Nat.add_min_add_right,
          Pipe.buffered_take hne, take_succ_cons, add_right_comm, add_assoc]
      · rw [hread, hlen, Nat.add_min_add_right, Pipe.nread_take, Nat.mod_add_mod,
          add_assoc, add_comm 1]
      · rw [hleft, Pipe.buffered_take hne, drop_succ_cons]

/-- And when the copy of byte `f` is the first that fails: that byte is
gone. -/
theorem pipereadLoop_fault {dst : Target} {f : Nat} : ∀ (n i : Nat) (pi : Pipe),
    f < min n pi.buffered.length → (∀ j < f, dst (i + j) = true) → dst (i + f) = false →
    ∃ out pi', pipereadLoop dst n i pi = (i + f, out, pi') ∧
      pi'.buffered = pi.buffered.drop (f + 1) := by
  induction f with
  | zero =>
    intro n i pi hlt _ hfail
    obtain ⟨n, rfl⟩ : ∃ m, n = m + 1 := ⟨n - 1, by omega⟩
    have hne : pi.nread ≠ pi.nwrite := fun heq => by
      rw [(Pipe.buffered_eq_nil pi).mpr heq] at hlt
      simp at hlt
    refine ⟨[], pi.take, ?_, ?_⟩
    · rw [pipereadLoop, if_neg hne, if_neg (by simpa using hfail), add_zero]
    · rw [Pipe.buffered_take hne, drop_succ_cons, drop_zero]
  | succ f ih =>
    intro n i pi hlt hok hfail
    obtain ⟨n, rfl⟩ : ∃ m, n = m + 1 := ⟨n - 1, by omega⟩
    have hne : pi.nread ≠ pi.nwrite := fun heq => by
      rw [(Pipe.buffered_eq_nil pi).mpr heq] at hlt
      simp at hlt
    have hcons := Pipe.buffered_take hne
    have hlen := Pipe.length_take hne
    obtain ⟨out, pi', hrun, hleft⟩ := ih n (i + 1) pi.take (by omega)
      (fun j hj => by
        have := hok (j + 1) (by omega)
        rwa [show i + 1 + j = i + (j + 1) by omega])
      (by rwa [show i + 1 + f = i + (f + 1) by omega])
    refine ⟨pi.next :: out, pi', ?_, ?_⟩
    · rw [pipereadLoop, if_neg hne, if_pos (show dst i = true from hok 0 (by omega)), hrun]
      grind [Function.update_apply]
    · rw [hleft, hcons, drop_succ_cons]

theorem piperead_awake {dst : Target} {n : Int} {wakes : List (Pipe × Bool)} {pi pi₀ pi' : Pipe}
    {killed : Bool} {i : Nat} {out : List Byte}
    (hwait : pipereadWait wakes pi killed = some (some pi₀))
    (hrun : pipereadLoop dst n.toNat 0 pi₀ = (i, out, pi')) :
    piperead dst n wakes pi killed = some ((i : Int), out, some pi') := by
  rw [piperead, hwait, Option.map_some]
  dsimp only
  rw [hrun]

/-- A read that does not find itself killed delivers exactly what it
consumes when no copy of a byte it takes fails, and in no other case. -/
theorem piperead_delivers_iff (dst : Target) (n : Int) (wakes : List (Pipe × Bool)) (pi : Pipe)
    (killed : Bool) (pi₀ : Pipe) (hwait : pipereadWait wakes pi killed = some (some pi₀)) :
    ∃ (i : Int) (out : List Byte) (pi' : Pipe),
      piperead dst n wakes pi killed = some (i, out, some pi') ∧ 0 ≤ i ∧
      (pi₀.Delivers i out pi' ↔ ∀ j < min n.toNat pi₀.buffered.length, dst j = true) := by
  by_cases hmapped : ∀ j < min n.toNat pi₀.buffered.length, dst j = true
  · obtain ⟨pi', hrun, hnread, hleft⟩ := pipereadLoop_mapped n.toNat 0 pi₀ (by simpa using hmapped)
    refine ⟨_, _, pi', piperead_awake hwait hrun, by omega,
      ⟨fun _ => hmapped, fun _ => ⟨?_, ?_, ?_⟩⟩⟩
    · rw [hnread, zero_add]
      push_cast
      rfl
    · rw [zero_add, Int.toNat_natCast, take_eq_take_iff, min_assoc, min_self]
    · rw [hleft, zero_add, Int.toNat_natCast, drop_eq_drop_iff, min_assoc,
        min_self]
  · -- the first byte that cannot be copied out is taken all the same
    have hex : ∃ f, f < min n.toNat pi₀.buffered.length ∧ dst f = false := by
      simpa [and_assoc] using hmapped
    classical
    obtain ⟨hlt, hfail⟩ := Nat.find_spec hex
    have hfirst : ∀ j < Nat.find hex, dst j = true := fun j hj => by
      grind [Nat.find_min, Function.update_apply]
    generalize Nat.find hex = f at hlt hfail hfirst
    obtain ⟨out, pi', hrun, hleft⟩ := pipereadLoop_fault n.toNat 0 pi₀ hlt (by simpa using hfirst)
      (by simpa using hfail)
    refine ⟨_, out, pi', piperead_awake hwait hrun, by omega,
      ⟨fun hd => ?_, fun h => absurd h hmapped⟩⟩
    have hlost := congrArg length (hleft.symm.trans hd.left)
    simp only [length_drop, zero_add, Int.toNat_natCast] at hlost
    omega

/-- A pipe with the bytes `a` and `b` in it, the counters about to wrap. -/
def twoBytes : Pipe :=
  (Pipe.put ⟨fun _ => 0, 0xffffffff, 0xffffffff, true, true⟩ 97).put 98

/-- The reader sleeps once, is woken by a writer, and gets both bytes. -/
theorem piperead_delivers_both :
    ∃ (i : Int) (out : List Byte) (pi' : Pipe),
      piperead (fun _ => true) 10 [(twoBytes, false)] twoBytes.take.take false
        = some (i, out, some pi') ∧ 0 ≤ i ∧ twoBytes.Delivers i out pi' := by
  obtain ⟨i, out, pi', hrun, h0, hiff⟩ := piperead_delivers_iff (fun _ => true) 10
    [(twoBytes, false)] twoBytes.take.take false twoBytes rfl
  exact ⟨i, out, pi', hrun, h0, hiff.mpr fun _ _ => rfl⟩

/-- A read of two bytes whose second byte falls in an unmapped page
returns 1, and the pipe is empty: `b` is lost. -/
theorem piperead_loses_byte :
    piperead (fun j => decide (j < 1)) 2 [] twoBytes false
        = some (1, [97], some twoBytes.take.take) ∧
      twoBytes.buffered = [97, 98] ∧ twoBytes.take.take.buffered = [] ∧
      ¬ twoBytes.Delivers 1 [97] twoBytes.take.take := by
  have hbuf : twoBytes.buffered = [97, 98] := by decide +kernel
  have hempty : twoBytes.take.take.buffered = [] := by decide +kernel
  refine ⟨by rfl, hbuf, hempty, fun hd => ?_⟩
  have hleft := hd.left
  rw [hbuf, hempty] at hleft
  exact absurd hleft (by decide)

end Xv6
