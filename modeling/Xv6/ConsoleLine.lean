import Xv6.StepSystem
import Xv6.FileRead

/-!
# The console

`consoleintr` and `consoleread` on the ring `cons`, with its three
free-running indices, and the calls of any number of readers. A reader
holds `cons.lock` except while it sleeps, so what happens between two
sleeps is one step; a reader that sleeps may look again at any time.

The purpose is `Editor`: a queue of committed input and the line being
edited. The console shows an editor (`Shows`), step by step
(`Shows.intr`, `Shows.readLoop`), and so over all runs. User copies
succeed and no reader is killed.
-/

namespace Xv6.Line

open Function Option Nat

open ByteVec (Byte)
open StepSystem

local instance : NeZero INPUT_BUF := ⟨by decide⟩

/-! ## `console.c` -/

/-- `C(x)`. -/
def ctrl (x : Byte) : Byte := x - 0x40

def newline : Byte := 0x0a

/-- `C('D')`, the end of a file. -/
def eof : Byte := ctrl 0x44

structure Cons where
  buf : Fin INPUT_BUF → Byte
  r : UInt32
  w : UInt32
  e : UInt32

/-- `cons.e--`. -/
def Cons.back (cons : Cons) : Cons := { cons with e := cons.e - 1 }

/-- `cons.r++`. -/
def Cons.next (cons : Cons) : Cons := { cons with r := cons.r + 1 }

/-- `cons.buf[cons.e++ % INPUT_BUF] = c`. -/
def Cons.push (cons : Cons) (c : Byte) : Cons :=
  { cons with
    buf := update cons.buf (Fin.ofNat INPUT_BUF cons.e.toNat) c
    e := cons.e + 1 }

/-- The loop of kill-line, for at most `n` rounds. -/
def killLoop : Nat → Cons → Cons
  | 0, cons => cons
  | n + 1, cons =>
      if cons.e ≠ cons.w ∧ cons.buf (Fin.ofNat INPUT_BUF (cons.e - 1).toNat) ≠ newline then
        killLoop n cons.back
      else cons

/-- The default case: a byte that is stored. -/
def store (c : Byte) (cons : Cons) : Cons :=
  let c := if c = 0x0d then newline else c
  let cons := cons.push c
  if c = newline ∨ c = eof ∨ cons.e = cons.r + 128 then { cons with w := cons.e } else cons

/-- Without the echo. The line has `cons.e - cons.w` bytes, so this is how
often the loop of kill-line can go round. -/
def consoleintr (c : Byte) (cons : Cons) : Cons :=
  if c = ctrl 0x50 then cons
  else if c = ctrl 0x55 then killLoop (cons.e - cons.w).toNat cons
  else if c = ctrl 0x48 ∨ c = 0x7f then
    if cons.e ≠ cons.w then cons.back else cons
  else if c ≠ 0 ∧ cons.e - cons.r < 128 then store c cons
  else cons

/-- What a reader has done when it returns or goes to sleep: the bytes
still to go, and those it has copied. -/
structure Part where
  left : Nat
  out : List Byte
  asleep : Bool

def Part.cons (c : Byte) (part : Part) : Part := { part with out := c :: part.out }

/-- The loop of `consoleread` with `n` of `target` bytes to go. -/
def consolereadLoop (target : Nat) : Nat → Cons → Part × Cons
  | 0, cons => (⟨0, [], false⟩, cons)
  | n + 1, cons =>
      if cons.r = cons.w then (⟨n + 1, [], true⟩, cons)
      else
        let c := cons.buf (Fin.ofNat INPUT_BUF cons.r.toNat)
        let cons := cons.next
        if c = eof then
          (⟨n + 1, [], false⟩, if n + 1 < target then { cons with r := cons.r - 1 } else cons)
        else if c = newline then (⟨n, [c], false⟩, cons)
        else ((consolereadLoop target n cons).1.cons c, (consolereadLoop target n cons).2)

/-! ## Readers -/

/-- A call that sleeps. -/
structure Call where
  target : Nat
  left : Nat
  got : List Byte

/-- A call that has returned. -/
structure Ret where
  pid : Nat
  target : Nat
  value : Nat
  bytes : List Byte
  deriving DecidableEq

/-- The readers of a store of input: their calls, the bytes they copied
out in order, and the calls that returned. -/
structure Sys (σ : Type) where
  store : σ
  call : Nat → Option Call
  copied : List (Nat × Byte)
  returned : List Ret

inductive Act where
  | intr (c : Byte)
  | read (p : Nat) (n : Int)
  | resume (p : Nat)

section Sys

variable {σ τ : Type} (intr : Byte → σ → σ) (readLoop : Nat → Nat → σ → Part × σ)

/-- The end of a step of reader `p`. -/
def Sys.after (S : Sys σ) (p : Nat) (k : Call) (part : Part) (s : σ) : Sys σ where
  store := s
  call := update S.call p
    (if part.asleep then some ⟨k.target, part.left, k.got ++ part.out⟩ else none)
  copied := S.copied ++ part.out.map fun c => (p, c)
  returned := if part.asleep then S.returned
    else S.returned ++ [⟨p, k.target, k.target - part.left, k.got ++ part.out⟩]

def Sys.go (S : Sys σ) (p : Nat) (k : Call) : Sys σ :=
  S.after p k (readLoop k.target k.left S.store).1 (readLoop k.target k.left S.store).2

/-- `consoleread` with `n ≤ 0` returns 0 at once. -/
def sysStep (S : Sys σ) : Act → Option (Sys σ)
  | .intr c => some { S with store := intr c S.store }
  | .read p n => if S.call p = none then some (S.go readLoop p ⟨n.toNat, n.toNat, []⟩) else none
  | .resume p => (S.call p).map (S.go readLoop p)

/-- Two systems whose readers have seen the same. -/
structure Alike (R : σ → τ → Prop) (S : Sys σ) (T : Sys τ) : Prop where
  store : R S.store T.store
  call : S.call = T.call
  copied : S.copied = T.copied
  returned : S.returned = T.returned

variable {intr readLoop} {intr' : Byte → τ → τ} {readLoop' : Nat → Nat → τ → Part × τ}

/-- Stores that answer alike make systems alike. -/
theorem Alike.step {R : σ → τ → Prop} (hintr : ∀ c s t, R s t → R (intr c s) (intr' c t))
    (hread : ∀ target n s t, R s t →
      (readLoop target n s).1 = (readLoop' target n t).1 ∧ R (readLoop target n s).2 (readLoop' target n t).2)
    {S S' : Sys σ} {T : Sys τ} {a : Act} (h : Alike R S T) (hs : sysStep intr readLoop S a = some S') :
    ∃ T', sysStep intr' readLoop' T a = some T' ∧ Alike R S' T' := by
  have hgo : ∀ p k, Alike R (S.go readLoop p k) (T.go readLoop' p k) := by
    intro p k
    obtain ⟨hpart, hR⟩ := hread k.target k.left S.store T.store h.store
    refine ⟨hR, ?_, ?_, ?_⟩
    · show update S.call p _ = update T.call p _
      rw [h.call, hpart]
    · show S.copied ++ _ = T.copied ++ _
      rw [h.copied, hpart]
    · show (if _ then S.returned else S.returned ++ _) = if _ then T.returned else T.returned ++ _
      rw [h.returned, hpart]
  cases a with
  | intr c =>
    cases hs
    exact ⟨_, rfl, hintr c _ _ h.store, h.call, h.copied, h.returned⟩
  | read p n =>
    obtain ⟨hfree, ⟨⟩⟩ := ite_none_right_eq_some.mp hs
    rw [h.call] at hfree
    exact ⟨_, if_pos hfree, hgo p _⟩
  | resume p =>
    obtain ⟨k, hk, rfl⟩ := map_eq_some_iff.mp hs
    rw [h.call] at hk
    exact ⟨_, map_eq_some_iff.mpr ⟨k, hk, rfl⟩, hgo p k⟩

end Sys

/-! ## The editor -/

/-- A queue of committed input and the line being edited; `committed` are
all bytes committed so far and `taken` those that left the queue. -/
structure Editor where
  queue : List Byte
  line : List Byte
  committed : List Byte
  taken : List Byte

namespace Editor

def setLine (E : Editor) (l : List Byte) : Editor := { E with line := l }

def commit (E : Editor) : Editor :=
  { E with queue := E.queue ++ E.line, line := [], committed := E.committed ++ E.line }

def take (E : Editor) : Editor :=
  { E with queue := E.queue.tail, taken := E.taken ++ E.queue.take 1 }

/-- A key: kill-line and backspace edit the line, other bytes are
appended while there is room, and newline, control-D and the last byte
there is room for commit the line. -/
def intr (c : Byte) (E : Editor) : Editor :=
  if c = ctrl 0x50 then E
  else if c = ctrl 0x55 then E.setLine []
  else if c = ctrl 0x48 ∨ c = 0x7f then E.setLine E.line.dropLast
  else if c ≠ 0 ∧ E.queue.length + E.line.length < INPUT_BUF then
    let c := if c = 0x0d then newline else c
    let E := E.setLine (E.line ++ [c])
    if c = newline ∨ c = eof ∨ E.queue.length + E.line.length = INPUT_BUF then E.commit else E
  else E

/-- A reader takes bytes up to a newline; a control-D ends its read, and
is left in the queue if the read has bytes. -/
def readLoop (target : Nat) : Nat → Editor → Part × Editor
  | 0, E => (⟨0, [], false⟩, E)
  | n + 1, E =>
      match E.queue.head? with
      | none => (⟨n + 1, [], true⟩, E)
      | some c =>
          if c = eof then (⟨n + 1, [], false⟩, if n + 1 < target then E else E.take)
          else if c = newline then (⟨n, [c], false⟩, E.take)
          else ((readLoop target n E.take).1.cons c, (readLoop target n E.take).2)

end Editor

/-! ## The console shows an editor -/

namespace Cons

/-- The bytes between the indices `i` and `j`. -/
def between (cons : Cons) (i j : UInt32) : RingQueue Byte INPUT_BUF (2 ^ 32) := ⟨cons.buf, i.toNat, j.toNat⟩

/-- The committed bytes. -/
def queue (cons : Cons) : List Byte := (cons.between cons.r cons.w).queue

/-- The line being edited. -/
def line (cons : Cons) : List Byte := (cons.between cons.w cons.e).queue

theorem between_wf (cons : Cons) (i j : UInt32) : (cons.between i j).Wf := ⟨i.toNat_lt, j.toNat_lt⟩

theorem count_between (cons : Cons) (i j : UInt32) : (cons.between i j).count = (j - i).toNat := by
  rw [UInt32.toNat_sub]
  show (j.toNat + 2 ^ 32 - i.toNat) % 2 ^ 32 = _
  have := i.toNat_lt
  congr 1
  omega

theorem length_queue (cons : Cons) : cons.queue.length = (cons.w - cons.r).toNat := by
  rw [queue, RingQueue.length_queue, count_between]

theorem length_line (cons : Cons) : cons.line.length = (cons.e - cons.w).toNat := by
  rw [line, RingQueue.length_queue, count_between]

/-- The bytes of the queue and the line together. -/
theorem queue_append (cons : Cons) (h : cons.queue.length + cons.line.length ≤ INPUT_BUF) :
    (cons.between cons.r cons.e).queue = cons.queue ++ cons.line
      ∧ (cons.e - cons.r).toNat = cons.queue.length + cons.line.length := by
  have hsum : (cons.between cons.r cons.w).count + (cons.between cons.w cons.e).count < 2 ^ 32 := by
    grind [queue, line, RingQueue.length_queue]
  refine ⟨RingQueue.queue_append (by decide) cons.r.toNat_lt cons.w.toNat_lt cons.e.toNat_lt hsum, ?_⟩
  rw [← count_between, queue, line, RingQueue.length_queue, RingQueue.length_queue]
  exact RingQueue.count_append cons.r.toNat_lt cons.w.toNat_lt cons.e.toNat_lt hsum

theorem line_eq_nil (cons : Cons) : cons.line = [] ↔ cons.e = cons.w := by
  rw [← List.length_eq_zero_iff, line, RingQueue.length_queue, RingQueue.count_eq_zero (cons.between_wf _ _)]
  exact UInt32.toNat_inj.trans eq_comm

theorem queue_eq_nil (cons : Cons) : cons.queue = [] ↔ cons.r = cons.w := by
  rw [← List.length_eq_zero_iff, queue, RingQueue.length_queue, RingQueue.count_eq_zero (cons.between_wf _ _)]
  exact UInt32.toNat_inj

theorem line_back {cons : Cons} (h : cons.e ≠ cons.w) :
    cons.line = cons.back.line ++ [cons.buf (Fin.ofNat INPUT_BUF (cons.e - 1).toNat)] := by
  have hne : (cons.between cons.w cons.e).count ≠ 0 := by
    rw [Ne, RingQueue.count_eq_zero (cons.between_wf _ _)]
    exact fun heq => h (UInt32.toNat_inj.mp heq).symm
  have hback : (cons.e.toNat + (2 ^ 32 - 1)) % 2 ^ 32 = (cons.e - 1).toNat := by
    rw [UInt32.toNat_sub, add_comm]
    rfl
  have hunput := RingQueue.queue_unput (cons.between_wf cons.w cons.e) (by decide) hne
  rw [line, hunput]
  show RingQueue.queue ⟨cons.buf, cons.w.toNat, (cons.e.toNat + (2 ^ 32 - 1)) % 2 ^ 32⟩
    ++ [cons.buf (Fin.ofNat INPUT_BUF ((cons.e.toNat + (2 ^ 32 - 1)) % 2 ^ 32))] = _
  rw [hback]
  rfl

theorem queue_next {cons : Cons} (h : cons.r ≠ cons.w) :
    cons.queue = cons.buf (Fin.ofNat INPUT_BUF cons.r.toNat) :: cons.next.queue := by
  have hne : (cons.between cons.r cons.w).count ≠ 0 := by
    rw [Ne, RingQueue.count_eq_zero (cons.between_wf _ _)]
    exact fun heq => h (UInt32.toNat_inj.mp heq)
  have htake := RingQueue.queue_take (cons.between_wf cons.r cons.w) (by decide) hne
  rw [queue, htake]
  rfl

theorem line_push {cons : Cons} (h : cons.queue.length + cons.line.length < INPUT_BUF) (c : Byte) :
    (cons.push c).queue = cons.queue ∧ (cons.push c).line = cons.line ++ [c] := by
  obtain ⟨htotal, hcount⟩ := cons.queue_append h.le
  have hkeep := RingQueue.queue_store (cons.between_wf cons.r cons.e) (by decide)
    (by rw [count_between, hcount]; exact h) c
  -- with the byte stored and before the index moves
  obtain ⟨stored, hstored⟩ : ∃ stored : Cons, stored =
    { cons with buf := update cons.buf (Fin.ofNat INPUT_BUF cons.e.toNat) c } := ⟨_, rfl⟩
  have hqlen : stored.queue.length = cons.queue.length := by rw [length_queue, length_queue, hstored]
  have hllen : stored.line.length = cons.line.length := by rw [length_line, length_line, hstored]
  obtain ⟨htotal', -⟩ := stored.queue_append (by rw [hqlen, hllen]; exact h.le)
  have hsame : stored.between stored.r stored.e = (cons.between cons.r cons.e).store c := by rw [hstored]; rfl
  rw [hsame, hkeep, htotal] at htotal'
  obtain ⟨hq, hl⟩ := List.append_inj htotal' hqlen.symm
  have hpub := RingQueue.queue_publish (stored.between_wf stored.w stored.e) (by decide)
    (by rw [count_between, ← length_line, hllen]; have : INPUT_BUF = 128 := rfl; omega)
  refine ⟨?_, ?_⟩
  · rw [hq, hstored]
    rfl
  · have hpush : (cons.push c).between cons.w (cons.e + 1) = (stored.between stored.w stored.e).publish := by
      rw [hstored]
      constructor <;> grind
    have hcell : (stored.between stored.w stored.e).cell (stored.between stored.w stored.e).wr = c := by
      rw [hstored]
      exact update_self ..
    show ((cons.push c).between cons.w (cons.e + 1)).queue = _
    rw [hpush, hpub, hcell]
    show stored.line ++ [c] = _
    rw [hl]

end Cons

/-- The console holds the queue and the line of an editor. -/
structure Shows (cons : Cons) (E : Editor) : Prop where
  queue : cons.queue = E.queue
  line : cons.line = E.line
  fits : E.queue.length + E.line.length ≤ INPUT_BUF
  plain : newline ∉ E.line ∧ eof ∉ E.line

section Shows

variable {cons : Cons} {E : Editor} {c : Byte}

theorem Shows.back (h : Shows cons E) (he : cons.e ≠ cons.w) :
    Shows cons.back (E.setLine E.line.dropLast) := by
  have hline := Cons.line_back he
  rw [h.line] at hline
  have hdrop : cons.back.line = E.line.dropLast := by rw [hline, List.dropLast_concat]
  refine ⟨h.queue, hdrop, ?_, fun hc => h.plain.1 (List.mem_of_mem_dropLast hc),
    fun hc => h.plain.2 (List.mem_of_mem_dropLast hc)⟩
  have hle : E.line.dropLast.length ≤ E.line.length := (List.dropLast_sublist _).length_le
  exact le_trans (Nat.add_le_add_left hle _) h.fits

/-- Kill-line empties the line: it has no newline. -/
theorem Shows.kill {n : Nat} (h : Shows cons E) (hn : E.line.length = n) :
    Shows (killLoop n cons) (E.setLine []) := by
  induction n generalizing cons E with
  | zero =>
    have hnil := List.eq_nil_of_length_eq_zero hn
    refine ⟨h.queue, h.line.trans hnil, ?_, List.not_mem_nil, List.not_mem_nil⟩
    exact le_trans (Nat.add_le_add_left (Nat.zero_le _) _) h.fits
  | succ n ih =>
    have he : cons.e ≠ cons.w := fun heq => by
      rw [← h.line, (cons.line_eq_nil).mpr heq] at hn
      cases hn
    have hline := Cons.line_back he
    have hbyte : cons.buf (Fin.ofNat INPUT_BUF (cons.e - 1).toNat) ≠ newline := fun heq => by
      rw [heq, h.line] at hline
      exact h.plain.1 (hline ▸ List.mem_append_right _ List.mem_cons_self)
    rw [killLoop, if_pos ⟨he, hbyte⟩]
    have hlen : E.line.dropLast.length = n := by rw [List.length_dropLast, hn, Nat.add_sub_cancel]
    have hrest : Shows (killLoop n cons.back) ((E.setLine E.line.dropLast).setLine []) := ih (h.back he) hlen
    exact hrest

theorem sub_lt_iff (h : Shows cons E) :
    cons.e - cons.r < 128 ↔ E.queue.length + E.line.length < INPUT_BUF := by
  have hcount := (cons.queue_append (by rw [h.queue, h.line]; exact h.fits)).2
  rw [h.queue, h.line] at hcount
  rw [UInt32.lt_iff_toNat_lt, hcount]
  rfl

theorem eq_add_iff (h : cons.queue.length + cons.line.length ≤ INPUT_BUF) :
    cons.e = cons.r + 128 ↔ cons.queue.length + cons.line.length = INPUT_BUF := by
  rw [← (cons.queue_append h).2, ← UInt32.toNat_inj, UInt32.toNat_add, UInt32.toNat_sub]
  have h1 := cons.e.toNat_lt
  have h2 := cons.r.toNat_lt
  have h128 : (128 : UInt32).toNat = 128 := rfl
  have hbuf : INPUT_BUF = 128 := rfl
  omega

/-- A line is committed. -/
theorem Shows.commit (hq : cons.queue = E.queue) (hl : cons.line = E.line)
    (hfits : E.queue.length + E.line.length ≤ INPUT_BUF) : Shows { cons with w := cons.e } E.commit := by
  have happend := (cons.queue_append (by rw [hq, hl]; exact hfits)).1
  rw [hq, hl] at happend
  refine ⟨happend, ?_, ?_, List.not_mem_nil, List.not_mem_nil⟩
  · exact (Cons.line_eq_nil _).mpr rfl
  · show (E.queue ++ E.line).length + 0 ≤ _
    rw [List.length_append]
    exact hfits

theorem Shows.store (h : Shows cons E) (hroom : E.queue.length + E.line.length < INPUT_BUF) (c : Byte) :
    Shows (store c cons) (let c := if c = 0x0d then newline else c
      let E := E.setLine (E.line ++ [c])
      if c = newline ∨ c = eof ∨ E.queue.length + E.line.length = INPUT_BUF then E.commit else E) := by
  unfold Line.store
  generalize (if c = 0x0d then newline else c) = c
  obtain ⟨hq, hl⟩ := Cons.line_push (by rw [h.queue, h.line]; exact hroom) c
  rw [h.queue] at hq
  rw [h.line] at hl
  have hfits : E.queue.length + (E.line ++ [c]).length ≤ INPUT_BUF := by
    rw [List.length_append]
    exact hroom
  have hfull : (cons.push c).e = (cons.push c).r + 128 ↔ E.queue.length + (E.line ++ [c]).length = INPUT_BUF := by
    rw [eq_add_iff (by rw [hq, hl]; exact hfits), hq, hl]
  by_cases hcommit : c = newline ∨ c = eof ∨ E.queue.length + (E.line ++ [c]).length = INPUT_BUF
  · have hcommit' : c = newline ∨ c = eof ∨ (E.setLine (E.line ++ [c])).queue.length
        + (E.setLine (E.line ++ [c])).line.length = INPUT_BUF := hcommit
    rw [if_pos hcommit', if_pos (hcommit.imp id (Or.imp id hfull.mpr))]
    exact Shows.commit (E := E.setLine (E.line ++ [c])) hq hl hfits
  · have hcommit' : ¬(c = newline ∨ c = eof ∨ (E.setLine (E.line ++ [c])).queue.length
        + (E.setLine (E.line ++ [c])).line.length = INPUT_BUF) := hcommit
    rw [if_neg hcommit', if_neg fun hc => hcommit (hc.imp id (Or.imp id hfull.mp))]
    refine ⟨hq, hl, hfits, ?_, ?_⟩
    · grind [Editor.setLine, h.plain.1]
    · grind [Editor.setLine, h.plain.2]

/-- Each key does to the console what it does to the editor. -/
theorem Shows.intr (h : Shows cons E) (c : Byte) : Shows (consoleintr c cons) (E.intr c) := by
  unfold consoleintr Editor.intr
  split
  · exact h
  split
  · exact h.kill (by rw [← h.line, Cons.length_line])
  split
  · split
    · rename_i he
      exact h.back he
    · rename_i he
      have hnil : E.line = [] := by
        rw [← h.line]
        exact (cons.line_eq_nil).mpr (not_not.mp he)
      rw [hnil, List.dropLast_nil, ← hnil]
      exact h
  · simp only [sub_lt_iff h]
    split
    · rename_i hc
      exact h.store hc.2 c
    · exact h

theorem Shows.next (h : Shows cons E) (hne : cons.r ≠ cons.w) : Shows cons.next E.take := by
  have hqueue := Cons.queue_next hne
  rw [h.queue] at hqueue
  refine ⟨?_, h.line, ?_, h.plain⟩
  · show _ = E.queue.tail
    rw [hqueue, List.tail_cons]
  · show E.queue.tail.length + E.line.length ≤ _
    have hfits := h.fits
    rw [List.length_tail]
    omega

/-- A reader of the console finds what a reader of the editor finds. -/
theorem Shows.readLoop (target n : Nat) (h : Shows cons E) :
    (consolereadLoop target n cons).1 = (E.readLoop target n).1
      ∧ Shows (consolereadLoop target n cons).2 (E.readLoop target n).2 := by
  induction n generalizing cons E with
  | zero => exact ⟨rfl, h⟩
  | succ n ih =>
    rw [consolereadLoop, Editor.readLoop]
    by_cases hne : cons.r = cons.w
    · have hnil : E.queue = [] := by
        rw [← h.queue]
        exact (cons.queue_eq_nil).mpr hne
      grind
    · have hqueue := Cons.queue_next hne
      rw [h.queue] at hqueue
      have hnext := h.next hne
      rw [if_neg hne, hqueue, List.head?_cons]
      dsimp only
      split
      · refine ⟨rfl, ?_⟩
        split
        · -- `cons.r++` and `cons.r--`
          have hback : { cons.next with r := cons.next.r - 1 } = cons := by
            show ({ cons with r := cons.r + 1 - 1 } : Cons) = cons
            rw [UInt32.add_sub_cancel]
          rw [hback]
          exact h
        · exact hnext
      grind

end Shows

/-! ## What readers get -/

/-- The control-D a reader removes: one that is the first byte of its
read. -/
def Part.eofs (part : Part) (target : Nat) : List Byte :=
  if part.asleep = false ∧ part.left = target ∧ 0 < target then [eof] else []

/-- What a reader with `n` of `target` bytes to go does to the editor. -/
structure Reads (target n : Nat) (E : Editor) (part : Part) (E' : Editor) : Prop where
  count : part.out.length + part.left = n
  noEof : eof ∉ part.out
  stops : newline ∉ part.out.dropLast
  sleeps : part.asleep = true → newline ∉ part.out ∧ 0 < part.left
  line : E'.line = E.line
  committed : E'.committed = E.committed
  queue : E.queue = part.out ++ part.eofs target ++ E'.queue
  taken : E'.taken = E.taken ++ part.out ++ part.eofs target
  /-- a read with bytes that ends early leaves a control-D -/
  early : part.asleep = false → 0 < part.left → part.left < target → part.out.getLast? ≠ some newline →
    E'.queue.head? = some eof

theorem Editor.take_of_head {E : Editor} {c : Byte} (h : E.queue.head? = some c) :
    E.queue = c :: E.take.queue ∧ E.take.taken = E.taken ++ [c] := by
  unfold Editor.take
  obtain ⟨q, hq⟩ : ∃ q, E.queue = c :: q := by
    cases hE : E.queue with
    | nil =>
      rw [hE] at h
      cases h
    | cons a q =>
      grind
  rw [hq]
  exact ⟨rfl, rfl⟩

section Reads

variable {target n : Nat} {E : Editor}

/-- A reader that takes nothing. -/
theorem Reads.nothing {part : Part} (hout : part.out = []) (hleft : part.left = n)
    (hsleep : part.asleep = true → 0 < n) (hno : part.asleep = false → 0 < n → n < target)
    (hearly : part.asleep = false → 0 < n → E.queue.head? = some eof) : Reads target n E part E := by
  have heofs : part.eofs target = [] := if_neg fun hc => by
    have h1 := hno hc.1
    omega
  refine ⟨by rw [hout, hleft]; exact zero_add n, by simp [hout], by simp [hout], fun h => ?_, rfl, rfl,
    by simp [hout, heofs], by simp [hout, heofs], fun h hpos _ _ => hearly h (hleft ▸ hpos)⟩
  exact ⟨by simp [hout], hleft.symm ▸ hsleep h⟩

theorem Editor.reads (E : Editor) (hn : n ≤ target) :
    Reads target n E (E.readLoop target n).1 (E.readLoop target n).2 := by
  induction n generalizing E with
  | zero =>
    simp [readLoop, Reads.nothing, lt_irrefl]
  | succ n ih =>
    rw [readLoop]
    cases hhead : E.queue.head? with
    | none => exact Reads.nothing rfl rfl (fun _ => succ_pos n) nofun nofun
    | some c =>
      obtain ⟨hq, htaken⟩ := take_of_head hhead
      dsimp only
      by_cases heof : c = eof
      · rw [if_pos heof]
        subst heof
        split
        · grind [Reads.nothing]
        · rename_i hge
          have hfirst : n + 1 = target := by omega
          have heofs : (⟨n + 1, [], false⟩ : Part).eofs target = [eof] :=
            if_pos ⟨rfl, hfirst, hfirst ▸ succ_pos n⟩
          exact ⟨zero_add _, List.not_mem_nil, List.not_mem_nil, nofun, rfl, rfl, by rw [heofs]; exact hq,
            by rw [heofs, htaken, List.append_nil], fun _ _ hlt => absurd hlt hge⟩
      rw [if_neg heof]
      by_cases hnl : c = newline
      · rw [if_pos hnl]
        have heofs : (⟨n, [c], false⟩ : Part).eofs target = [] := if_neg fun hc => by grind
        refine ⟨add_comm 1 n, by simpa using Ne.symm heof, by simp, nofun, rfl, rfl,
          by rw [heofs]; exact hq, by rw [heofs, htaken, List.append_nil], fun _ _ _ hlast => ?_⟩
        exact absurd (by rw [hnl]; rfl) hlast
      · rw [if_neg hnl]
        have h := ih E.take (le_of_succ_le hn)
        generalize (E.take.readLoop target n).1 = part at h ⊢
        have heofs : (part.cons c).eofs target = part.eofs target := rfl
        refine ⟨?_, ?_, ?_, fun hs => ⟨?_, (h.sleeps hs).2⟩, h.line, h.committed, ?_, ?_, fun hs hpos hlt hlast => ?_⟩
        · show part.out.length + 1 + part.left = n + 1
          have := h.count
          omega
        · exact List.not_mem_cons_of_ne_of_not_mem (Ne.symm heof) h.noEof
        · show newline ∉ (c :: part.out).dropLast
          rcases eq_or_ne part.out [] with hout | hout
          · simp [hout]
          · rw [List.dropLast_cons_of_ne_nil hout]
            exact List.not_mem_cons_of_ne_of_not_mem (Ne.symm hnl) h.stops
        · exact List.not_mem_cons_of_ne_of_not_mem (Ne.symm hnl) (h.sleeps hs).1
        · rw [hq, h.queue, heofs]
          rfl
        · rw [h.taken, htaken, heofs]
          simp [Part.cons]
        · refine h.early hs hpos hlt fun hc => hlast ?_
          show (c :: part.out).getLast? = some newline
          rw [List.getLast?_cons, hc]
          rfl

end Reads

/-! ## Runs -/

/-- The bytes of a call so far. -/
def gotOf (call : Option Call) : List Byte := (call.map Call.got).getD []

def consStep : Sys Cons → Act → Option (Sys Cons) := sysStep consoleintr consolereadLoop

def editStep : Sys Editor → Act → Option (Sys Editor) := sysStep Editor.intr fun target n E => E.readLoop target n

/-- What all reads together have got. -/
structure History (T : Sys Editor) : Prop where
  /-- committed bytes leave the queue in order, -/
  stream : T.store.committed = T.store.taken ++ T.store.queue
  /-- are copied out, control-D apart, -/
  copied : T.copied.map Prod.snd = T.store.taken.filter (· ≠ eof)
  /-- and each control-D that leaves the queue is a read that returns 0 -/
  eofs : T.store.taken.count eof = (T.returned.filter fun x => 0 < x.target ∧ x.bytes = []).length
  /-- a reader's bytes are those of its reads, one after the other -/
  own : ∀ p, (T.copied.filter (·.1 = p)).map Prod.snd
    = (T.returned.filter (·.pid = p)).flatMap Ret.bytes ++ gotOf (T.call p)
  calls : ∀ p k, T.call p = some k →
    k.got.length + k.left = k.target ∧ 0 < k.left ∧ newline ∉ k.got ∧ eof ∉ k.got
  /-- a read stops right after a newline -/
  results : ∀ x ∈ T.returned, x.value = x.bytes.length ∧ x.bytes.length ≤ x.target
    ∧ newline ∉ x.bytes.dropLast ∧ eof ∉ x.bytes

section History

variable {T T' : Sys Editor} {p : Nat} {k : Call}

theorem History.intr (h : History T) (c : Byte) : History { T with store := T.store.intr c } := by
  have hsame : (T.store.intr c).taken = T.store.taken
      ∧ ((T.store.intr c).committed = T.store.committed ∧ (T.store.intr c).queue = T.store.queue
        ∨ ∃ l, (T.store.intr c).committed = T.store.committed ++ l
          ∧ (T.store.intr c).queue = T.store.queue ++ l) := by
    unfold Editor.intr
    split
    · exact ⟨rfl, .inl ⟨rfl, rfl⟩⟩
    split
    · exact ⟨rfl, .inl ⟨rfl, rfl⟩⟩
    split
    · exact ⟨rfl, .inl ⟨rfl, rfl⟩⟩
    split
    · dsimp only
      generalize (if c = 0x0d then newline else c) = c'
      split
      · exact ⟨rfl, .inr ⟨_, rfl, rfl⟩⟩
      · exact ⟨rfl, .inl ⟨rfl, rfl⟩⟩
    · exact ⟨rfl, .inl ⟨rfl, rfl⟩⟩
  obtain ⟨htaken, hstream⟩ := hsame
  refine ⟨?_, ?_, ?_, h.own, h.calls, h.results⟩
  · rw [htaken]
    rcases hstream with ⟨hc, hq⟩ | ⟨l, hc, hq⟩
    · rw [hc, hq, h.stream]
    · rw [hc, hq, h.stream, List.append_assoc]
  · rw [htaken]
    exact h.copied
  · rw [htaken]
    exact h.eofs

/-- A step of a reader. -/
theorem History.after {part : Part} {E' : Editor} (h : History T) (hgot : gotOf (T.call p) = k.got)
    (hcount : k.got.length + k.left = k.target) (hnl : newline ∉ k.got) (heof : eof ∉ k.got)
    (hr : Reads k.target k.left T.store part E') : History (T.after p k part E') := by
  have hout : part.out.filter (· ≠ eof) = part.out :=
    List.filter_eq_self.mpr fun c hc => by simpa using fun heq : c = eof => hr.noEof (heq ▸ hc)
  have hno : part.out.count eof = 0 := List.count_eq_zero.mpr hr.noEof
  refine ⟨?_, ?_, ?_, ?_, ?_, ?_⟩
  · show E'.committed = E'.taken ++ E'.queue
    rw [hr.committed, h.stream, hr.taken, hr.queue]
    simp only [List.append_assoc]
  · show (T.copied ++ _).map _ = E'.taken.filter _
    have heofs : (part.eofs k.target).filter (· ≠ eof) = [] := by
      unfold Part.eofs
      split
      · simp
      · rfl
    rw [List.map_append, h.copied, hr.taken, List.filter_append, List.filter_append, hout, heofs]
    simp
  · show E'.taken.count eof = (List.filter _ (if part.asleep then _ else _)).length
    rw [hr.taken, List.count_append, List.count_append, hno, add_zero, h.eofs]
    cases hs : part.asleep with
    | true => simp [Part.eofs, hs]
    | false =>
      have hempty : k.got ++ part.out = [] ↔ part.left = k.target := by
        have hsum := hr.count
        rw [← List.length_eq_zero_iff, List.length_append]
        omega
      by_cases hc : 0 < k.target ∧ k.got ++ part.out = []
      · have heofs : part.eofs k.target = [eof] := if_pos ⟨hs, hempty.mp hc.2, hc.1⟩
        simp [heofs, List.filter_append, hc]
      · have heofs : part.eofs k.target = [] := if_neg fun he => hc ⟨he.2.2, hempty.mpr he.2.1⟩
        grind
  · intro q
    show (List.filter _ (T.copied ++ _)).map _ = (List.filter _ (if part.asleep then _ else _)).flatMap _
      ++ gotOf (update T.call p _ q)
    rw [List.filter_append, List.map_append, h.own q]
    rcases eq_or_ne q p with rfl | hne
    · have hmine : (part.out.map fun c => (q, c)).filter (fun x => x.1 = q) = part.out.map fun c => (q, c) :=
        List.filter_eq_self.mpr fun x hx => by grind
      rw [hmine, hgot, update_self, List.map_map, List.append_assoc]
      cases part.asleep with
      | true => simp [gotOf]
      | false => simp [gotOf, List.filter_append]
    · have hother : (part.out.map fun c => (p, c)).filter (fun x => x.1 = q) = [] :=
        List.filter_eq_nil_iff.mpr fun x hx => by grind
      rw [hother, update_of_ne hne]
      cases part.asleep with
      | true => simp
      | false => simp [List.filter_append, hne.symm]
  · intro q k' hk'
    rcases eq_or_ne q p with rfl | hne
    · have hk' : update T.call q _ q = some k' := hk'
      rw [update_self] at hk'
      obtain ⟨hs, hk'⟩ := ite_none_right_eq_some.mp hk'
      cases hk'
      obtain ⟨hnew, hpos⟩ := hr.sleeps hs
      have hsum := hr.count
      grind
    · have hk' : update T.call p _ q = some k' := hk'
      rw [update_of_ne hne] at hk'
      exact h.calls q k' hk'
  · intro x hx
    have hx : x ∈ if part.asleep then T.returned
      else T.returned ++ [⟨p, k.target, k.target - part.left, k.got ++ part.out⟩] := hx
    split at hx
    · exact h.results x hx
    · rcases List.mem_append.mp hx with hx | hx
      · exact h.results x hx
      · obtain rfl := List.mem_singleton.mp hx
        have hsum := hr.count
        refine ⟨?_, ?_, ?_, by simp [heof, hr.noEof]⟩
        · grind
        · grind
        · rcases eq_or_ne part.out [] with hnil | hne
          · rw [hnil, List.append_nil]
            exact fun hc => hnl (List.mem_of_mem_dropLast hc)
          · rw [List.dropLast_append_of_ne_nil hne]
            simp [hnl, hr.stops]

theorem History.step {a : Act} (h : History T) (hs : editStep T a = some T') : History T' := by
  cases a with
  | intr c =>
    cases hs
    exact h.intr c
  | read p n =>
    obtain ⟨hfree, ⟨⟩⟩ := ite_none_right_eq_some.mp hs
    exact h.after (by rw [hfree]; rfl) (zero_add _) List.not_mem_nil List.not_mem_nil
      (Editor.reads T.store le_rfl)
  | resume p =>
    obtain ⟨k, hk, rfl⟩ := map_eq_some_iff.mp hs
    obtain ⟨hcount, -, hnl, heof⟩ := h.calls p k hk
    exact h.after (by rw [hk]; rfl) hcount hnl heof (Editor.reads T.store (by omega))

end History

/-! ## The line editor -/

/-- The console at boot, with any values of its indices. -/
def bootCons (buf : Fin INPUT_BUF → Byte) (x : UInt32) : Sys Cons := ⟨⟨buf, x, x, x⟩, fun _ => none, [], []⟩

def bootEditor : Sys Editor := ⟨⟨[], [], [], []⟩, fun _ => none, [], []⟩

/-- A carriage return is stored as a newline. -/
def cooked (c : Byte) : Byte := if c = 0x0d then newline else c

/-- The byte is stored and ends the line. -/
def Commits (c : Byte) (cons : Cons) : Prop :=
  c ∉ [ctrl 0x50, ctrl 0x55, ctrl 0x48, 0x7f, 0] ∧ cons.queue.length + cons.line.length < INPUT_BUF
    ∧ (cooked c = newline ∨ cooked c = eof ∨ cons.queue.length + cons.line.length + 1 = INPUT_BUF)

instance (c : Byte) (cons : Cons) : Decidable (Commits c cons) := inferInstanceAs (Decidable (_ ∧ _))

/-- The console and its readers as a line editor over a queue. -/
structure LineEditor (S : Sys Cons) (T : Sys Editor) : Prop where
  alike : Alike Shows S T
  history : History T
  /-- `r ≤ w ≤ e ≤ r + INPUT_BUF` modulo `2^32` -/
  indices : (S.store.w - S.store.r).toNat + (S.store.e - S.store.w).toNat ≤ INPUT_BUF
  /-- a key commits the line or leaves the queue as it is -/
  keys : ∀ c, (consoleintr c S.store).queue
    = if Commits c S.store then S.store.queue ++ (S.store.line ++ [cooked c]) else S.store.queue
  /-- a read that has bytes keeps the control-D that ends it -/
  keeps : ∀ a S' x, consStep S a = some S' → S'.returned = S.returned ++ [x] → 0 < x.bytes.length →
    x.bytes.length < x.target → x.bytes.getLast? ≠ some newline → S'.store.queue.head? = some eof
  /-- a read that starts at a control-D returns 0 and removes it -/
  ends : ∀ p n, S.call p = none → 0 < n → S.store.queue.head? = some eof →
    ∃ S', consStep S (.read p n) = some S' ∧ S'.returned = S.returned ++ [⟨p, n.toNat, 0, []⟩]
      ∧ S'.store.queue = S.store.queue.tail

section LineEditor

variable {S S' : Sys Cons} {T T' : Sys Editor}

theorem Alike.consStep {a : Act} (h : Alike Shows S T) (hs : consStep S a = some S') :
    ∃ T', editStep T a = some T' ∧ Alike Shows S' T' :=
  h.step (fun c _ _ hsh => hsh.intr c) (fun target n _ _ hsh => hsh.readLoop target n) hs

theorem Shows.keys {cons : Cons} {E : Editor} (h : Shows cons E) (c : Byte) : (consoleintr c cons).queue
    = if Commits c cons then cons.queue ++ (cons.line ++ [cooked c]) else cons.queue := by
  have hcommits : Commits c cons ↔ c ∉ [ctrl 0x50, ctrl 0x55, ctrl 0x48, 0x7f, 0]
      ∧ E.queue.length + E.line.length < INPUT_BUF
      ∧ (cooked c = newline ∨ cooked c = eof ∨ E.queue.length + E.line.length + 1 = INPUT_BUF) := by
    unfold Commits
    rw [h.queue, h.line]
  rw [(h.intr c).queue, h.queue, h.line]
  unfold Editor.intr
  split
  · grind
  split
  · rename_i hc
    rw [if_neg fun hcm => (hcommits.mp hcm).1 (by simp [hc])]
    rfl
  split
  · rename_i hc
    rw [if_neg fun hcm => (hcommits.mp hcm).1 (by rcases hc with hc | hc <;> simp [hc])]
    rfl
  rename_i hp hu hh
  rw [not_or] at hh
  split
  · rename_i hroom
    have hlen : (E.setLine (E.line ++ [cooked c])).queue.length + (E.setLine (E.line ++ [cooked c])).line.length
        = E.queue.length + E.line.length + 1 := by
      show E.queue.length + (E.line ++ [cooked c]).length = _
      rw [List.length_append]
      rfl
    show (if cooked c = newline ∨ cooked c = eof ∨ (E.setLine (E.line ++ [cooked c])).queue.length
        + (E.setLine (E.line ++ [cooked c])).line.length = INPUT_BUF
      then (E.setLine (E.line ++ [cooked c])).commit else E.setLine (E.line ++ [cooked c])).queue = _
    rw [hlen]
    split
    · rename_i hend
      rw [if_pos (hcommits.mpr ⟨by simpa using ⟨hp, hu, hh.1, hh.2, hroom.1⟩, hroom.2, hend⟩)]
      rfl
    · rename_i hend
      rw [if_neg fun hcm => hend (hcommits.mp hcm).2.2]
      rfl
  · grind

theorem Alike.keeps (h : Alike Shows S T) (hh : History T) {a : Act} {x : Ret} (hs : Line.consStep S a = some S')
    (hx : S'.returned = S.returned ++ [x]) (hpos : 0 < x.bytes.length) (hlt : x.bytes.length < x.target)
    (hlast : x.bytes.getLast? ≠ some newline) : S'.store.queue.head? = some eof := by
  obtain ⟨T', hs', h'⟩ := h.consStep hs
  rw [h'.store.queue]
  rw [h.returned, h'.returned] at hx
  have hgo : ∀ p k, k.left ≤ k.target → k.got.length + k.left = k.target →
      T' = T.go (fun target n E => E.readLoop target n) p k → T'.store.queue.head? = some eof := by
    intro p k hle hcount hT
    have hr := Editor.reads T.store hle
    rw [hT] at hx ⊢
    have hx : (if (T.store.readLoop k.target k.left).1.asleep then T.returned
        else T.returned ++ [⟨p, k.target, k.target - (T.store.readLoop k.target k.left).1.left,
          k.got ++ (T.store.readLoop k.target k.left).1.out⟩]) = T.returned ++ [x] := hx
    generalize (T.store.readLoop k.target k.left).1 = part at hr hx
    have hsum := hr.count
    cases hasleep : part.asleep with
    | true =>
      simp_all
    | false =>
      rw [hasleep, if_neg Bool.false_ne_true] at hx
      obtain rfl := List.singleton_inj.mp (List.append_cancel_left hx)
      rw [List.length_append] at hpos hlt
      refine hr.early hasleep (by dsimp only at hlt; omega) (by omega) fun hc => hlast ?_
      rw [List.getLast?_append, hc]
      rfl
  cases a with
  | intr c =>
    cases hs'
    simp_all
  | read p n =>
    obtain ⟨hfree, ⟨⟩⟩ := ite_none_right_eq_some.mp hs'
    exact hgo p _ le_rfl (zero_add _) rfl
  | resume p =>
    obtain ⟨k, hk, rfl⟩ := map_eq_some_iff.mp hs'
    have hcount := (hh.calls p k hk).1
    exact hgo p k (by omega) hcount rfl

theorem Alike.ends (h : Alike Shows S T) {p : Nat} {n : Int} (hfree : S.call p = none) (hn : 0 < n)
    (heof : S.store.queue.head? = some eof) :
    ∃ S', Line.consStep S (.read p n) = some S' ∧ S'.returned = S.returned ++ [⟨p, n.toNat, 0, []⟩]
      ∧ S'.store.queue = S.store.queue.tail := by
  obtain ⟨m, hm⟩ : ∃ m, n.toNat = m + 1 := ⟨n.toNat - 1, by omega⟩
  have hread : T.store.readLoop n.toNat n.toNat = (⟨m + 1, [], false⟩, T.store.take) := by
    rw [h.store.queue] at heof
    rw [hm, Editor.readLoop, heof]
    simp
  obtain ⟨hpart, hshows⟩ := h.store.readLoop n.toNat n.toNat
  rw [hread] at hpart hshows
  refine ⟨_, if_pos hfree, ?_, ?_⟩
  · show (if (consolereadLoop n.toNat n.toNat S.store).1.asleep then _ else _) = _
    grind
  · show (consolereadLoop n.toNat n.toNat S.store).2.queue = _
    rw [hshows.queue, h.store.queue]
    rfl

/-- Over any run of keys and reads the console is a line editor. -/
theorem console_is_line_editor {buf : Fin INPUT_BUF → Byte} {x : UInt32} {acts : List Act}
    (hrun : run Line.consStep (bootCons buf x) acts = some S) :
    ∃ T, run editStep bootEditor acts = some T ∧ LineEditor S T := by
  have hboot : Alike Shows (bootCons buf x) bootEditor := by
    refine ⟨⟨?_, ?_, zero_le _, List.not_mem_nil, List.not_mem_nil⟩, rfl, rfl, rfl⟩
    · exact (Cons.queue_eq_nil _).mpr rfl
    · exact (Cons.line_eq_nil _).mpr rfl
  have hsim : ∀ {S T a S'}, Alike Shows S T → Line.consStep S a = some S' →
      ∃ T', editStep T a = some T' ∧ Alike Shows S' T' := fun h hs => h.consStep hs
  obtain ⟨T, hrun', h⟩ := run_simulation hsim hboot hrun
  have hhist : History T := by
    refine run_invariant (fun h hs => History.step h hs) ?_ hrun'
    exact ⟨rfl, rfl, rfl, fun _ => rfl, nofun, nofun⟩
  refine ⟨T, hrun', h, hhist, ?_, h.store.keys, fun a S' x => h.keeps hhist, fun p n => h.ends⟩
  have hfits := h.store.fits
  rw [← h.store.queue, ← h.store.line, Cons.length_queue, Cons.length_line] at hfits
  exact hfits

end LineEditor

/-- `a`, `b`, a backspace and a control-D across the wrap of the indices,
and two reads. -/
theorem console_is_line_editor_eof :
    ∃ S T, run consStep (bootCons (fun _ => 0) 0xffffffff)
        [.intr 0x61, .intr 0x62, .intr 0x08, .intr 0x04, .read 0 5, .read 0 5] = some S
      ∧ S.returned = [⟨0, 5, 1, [0x61]⟩, ⟨0, 5, 0, []⟩] ∧ LineEditor S T := by
  have heval : (run consStep (bootCons (fun _ => 0) 0xffffffff)
      [.intr 0x61, .intr 0x62, .intr 0x08, .intr 0x04, .read 0 5, .read 0 5]).any
        (fun S => S.returned = [⟨0, 5, 1, [0x61]⟩, ⟨0, 5, 0, []⟩]) = true := by
    decide +kernel
  obtain ⟨S, hS, hret⟩ := (any_eq_true ..).mp heval
  obtain ⟨T, -, h⟩ := console_is_line_editor hS
  exact ⟨S, T, hS, of_decide_eq_true hret, h⟩

end Xv6.Line
