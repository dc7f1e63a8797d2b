import Xv6.BioInv
import Xv6.BioLog

/-!
# Pins and evictions

The invariant of the cache under the log, over every interleaving.
`CacheInv` speaks of a list of pinned blocks; here that list is the
header without the blocks `install_trans` has unpinned (`BioSys.pend`).

What the committing process relies on between two of its calls is
`CommitInv`: the one or two buffers it has read are its own, saved
unless it has just copied into one, and at `bunpin` the block is on the
disk. Each call of `commit()` passes it on in the same way wherever it
stands in the code (`CommitPc.flow`), and other processes cannot disturb
buffers they do not hold (`Undisturbed`).
-/

namespace Xv6

open Function StepSystem List Option

/-! ## What `commit()` holds -/

namespace CommitPc

variable (lg : LogArea) (lh : List Nat)

/-- The buffer read first and still held, with its block. -/
def outer : CommitPc → Option (BufId × Nat)
  | .wlMove t dst _ | .wlWrite t dst _ | .wlRelFrom t dst _ => some (dst, lg.start + t + 1)
  | .itMove t l _ | .itWrite t l _ | .itUnpin t l _ | .itRelLog t l _ =>
      some (l, lg.start + t + 1)
  | _ => none

/-- The buffer read last and still held, with its block. -/
def inner : CommitPc → Option (BufId × Nat)
  | .wlFrom t dst | .wlRelTo t dst => some (dst, lg.start + t + 1)
  | .wlMove t _ src | .wlWrite t _ src | .wlRelFrom t _ src => some (src, lh.getD t 0)
  | .whFill _ i | .whWrite _ i | .whRel _ i => some (i, lg.start)
  | .itDst t l => some (l, lg.start + t + 1)
  | .itMove t _ d | .itWrite t _ d | .itUnpin t _ d | .itRelLog t _ d | .itRelDst t d =>
      some (d, lh.getD t 0)
  | _ => none

/-- The buffer copied into and not written yet. -/
def dirty : CommitPc → Option BufId
  | .wlWrite _ dst _ => some dst
  | .whWrite _ i => some i
  | .itWrite _ _ d => some d
  | _ => none

/-- The block whose pin goes at this node. -/
def unpins : CommitPc → Option (BufId × Nat)
  | .itUnpin t _ d => some (d, lh.getD t 0)
  | _ => none

/-- The loop index, inside a loop body. -/
def index : CommitPc → Option Nat
  | .wlFrom t _ | .wlMove t .. | .wlWrite t .. | .wlRelFrom t .. | .wlRelTo t _ => some t
  | .itDst t _ | .itMove t .. | .itWrite t .. | .itUnpin t .. | .itRelLog t .. | .itRelDst t _ =>
      some t
  | _ => none

/-- `k` holds the same buffers at the same point of the transaction. -/
structure Same (pc k : CommitPc) : Prop where
  outer : k.outer lg = pc.outer lg
  inner : k.inner lg lh = pc.inner lg lh
  index : k.index = pc.index
  phase : k.phase = pc.phase

end CommitPc

/-- How one call of `commit()` passes on what the process holds. -/
def Instr.Flow (lg : LogArea) (lh : List Nat) (pc : CommitPc) : Instr → Prop
  | .bread b k => pc.outer lg = none ∧ pc.dirty = none ∧ ∀ i,
      (k i).outer lg = pc.inner lg lh ∧ (k i).inner lg lh = some (i, b) ∧ (k i).dirty = none
      ∧ (k i).unpins lh = none ∧ (k i).pend lh = pc.pend lh ∧ (k i).phase = pc.phase
      ∧ ∀ t, (k i).index = some t → t < lh.length ∨ pc.index = some t
  | .move dst _ k | .setHead dst k => pc.Same lg lh k ∧ pc.dirty = none ∧ k.dirty = some dst
      ∧ k.unpins lh = none ∧ k.pend lh = pc.pend lh
      ∧ ∃ b, pc.outer lg = some (dst, b) ∨ pc.inner lg lh = some (dst, b)
  | .bwrite i k => pc.Same lg lh k ∧ pc.dirty = some i ∧ k.dirty = none
      ∧ k.pend lh = pc.pend lh
      ∧ ∀ d b, k.unpins lh = some (d, b) → d = i ∧ pc.inner lg lh = some (d, b)
  | .bunpin i k => pc.Same lg lh k ∧ pc.dirty = none ∧ k.dirty = none ∧ k.unpins lh = none
      ∧ ∃ t, pc.index = some t ∧ pc.unpins lh = some (i, lh.getD t 0)
        ∧ pc.inner lg lh = some (i, lh.getD t 0)
        ∧ pc.pend lh = lh.drop t ∧ k.pend lh = lh.drop (t + 1)
  | .brelse i k => pc.dirty = none ∧ k.dirty = none ∧ k.unpins lh = none
      ∧ k.pend lh = pc.pend lh ∧ k.phase = pc.phase ∧ k.outer lg = none
      ∧ (∀ t, k.index = some t → pc.index = some t)
      ∧ ∃ b, pc.inner lg lh = some (i, b) ∧ k.inner lg lh = pc.outer lg
        ∨ pc.outer lg = some (i, b) ∧ k.inner lg lh = pc.inner lg lh
  | .phase k => k.outer lg = none ∧ (∀ lh', k.inner lg lh' = none) ∧ k.dirty = none
      ∧ (∀ lh', k.unpins lh' = none) ∧ k.index = none

theorem CommitPc.flow (lg : LogArea) (lh : List Nat) (pc : CommitPc) :
    (pc.instr lg lh).Flow lg lh pc := by
  cases pc with
  | test =>
    by_cases h : lh.length > 0 <;>
      simp [CommitPc.instr, h, Instr.Flow, CommitPc.outer, CommitPc.inner, CommitPc.dirty,
        CommitPc.unpins, CommitPc.index]
  | wlTo t =>
    by_cases h : t < lh.length <;>
      simp [CommitPc.instr, h, Instr.Flow, CommitPc.outer, CommitPc.inner, CommitPc.dirty,
        CommitPc.unpins, CommitPc.index, CommitPc.pend, CommitPc.phase]
  | itLog t =>
    by_cases h : t < lh.length <;>
      simp [CommitPc.instr, h, Instr.Flow, CommitPc.outer, CommitPc.inner, CommitPc.dirty,
        CommitPc.unpins, CommitPc.index, CommitPc.pend, CommitPc.phase]
  | whDone e =>
    cases e <;>
      simp [CommitPc.instr, Instr.Flow, CommitPc.outer, CommitPc.inner, CommitPc.dirty,
        CommitPc.unpins, CommitPc.index]
  | wlMove t dst src | whFill e i | itMove t l d | wlWrite t dst src | whWrite e i
  | itWrite t l d | itUnpin t l d =>
    refine ⟨⟨rfl, rfl, rfl, rfl⟩, ?_⟩
    simp [CommitPc.outer, CommitPc.inner, CommitPc.dirty, CommitPc.unpins, CommitPc.index,
      CommitPc.pend]
  | _ =>
    simp [CommitPc.instr, Instr.Flow, CommitPc.outer, CommitPc.inner, CommitPc.dirty,
      CommitPc.unpins, CommitPc.index, CommitPc.pend, CommitPc.phase]

/-! ## Buffers held by others -/

/-- A step that leaves the buffers `p` holds alone. -/
structure Undisturbed (p : Nat) (c c' : Bcache) : Prop where
  holder : ∀ j, (c'.buf j).holder = some p ↔ (c.buf j).holder = some p
  face : ∀ j, (c.buf j).holder = some p → (c'.buf j).face = (c.buf j).face
  disk : ∀ j, (c.buf j).holder = some p → c'.disk (c.buf j).blockno = c.disk (c.buf j).blockno

section Undisturbed

variable {c : Bcache} {p : Nat} {i : BufId} {x : Buf}

theorem undisturbed_set (hi : (c.buf i).holder ≠ some p) (hx : x.holder ≠ some p) :
    Undisturbed p c (c.set i x) := by
  refine ⟨fun j => ?_, fun j hj => ?_, fun _ _ => rfl⟩
  · by_cases hji : j = i
    · simp_all
    · rw [c.set_of_ne hji]
  · rw [c.set_of_ne]
    rintro rfl
    exact hi hj

/-- Only a reference count moved. -/
theorem undisturbed_refcnt (hf : x.face = (c.buf i).face) (hh : x.holder = (c.buf i).holder) :
    Undisturbed p c (c.set i x) := by
  refine ⟨fun j => ?_, fun j _ => c.set_field Buf.face hf j, fun _ _ => rfl⟩
  rw [c.set_field Buf.holder hh j]

theorem undisturbed_drop : Undisturbed p c (c.drop i) := by
  have h := undisturbed_refcnt (c := c) (p := p) (i := i)
    (x := { c.buf i with refcnt := (c.buf i).refcnt - 1 }) rfl rfl
  unfold Bcache.drop
  dsimp only
  split
  · exact ⟨h.holder, h.face, h.disk⟩
  · exact h

theorem undisturbed_fill (hi : (c.buf i).holder ≠ some p) : Undisturbed p c (c.fill i) := by
  unfold Bcache.fill
  split
  · constructor <;> grind
  · exact undisturbed_set hi hi

theorem undisturbed_bwrite {call : Nat → Call} {h : BioHist} {pend : List Nat}
    (inv : CacheInv c call h pend) (hdev : (c.buf i).dev = ROOTDEV)
    (hi : (c.buf i).holder ≠ some p) : Undisturbed p c (c.bwrite i) := by
  refine ⟨fun _ => Iff.rfl, fun _ _ => rfl, fun j hj => ?_⟩
  have hji : j ≠ i := by
    rintro rfl
    exact hi hj
  exact update_of_ne
    (inv.blockno_ne ⟨hdev, rfl⟩ hji ((inv.refs j).holder hj).1) ..

/-- `bget` keeps held buffers: a held buffer has a reference. -/
theorem undisturbed_bget {call : Nat → Call} {h : BioHist} {pend : List Nat} {c' : Bcache}
    {b : Nat} (inv : CacheInv c call h pend) (hb : c.bget ROOTDEV b = some (i, c')) :
    Undisturbed p c c' := by
  rcases Bcache.bget_cases inv.lru hb with ⟨-, rfl⟩ | ⟨-, h0, rfl⟩
  · exact undisturbed_refcnt rfl rfl
  · have hh := ((inv.refs i).of_refcnt_zero h0).1
    exact undisturbed_set (by simp [hh]) (by simp [Buf.recycled, hh])

end Undisturbed

/-- `bget` on behalf of an idle process. -/
theorem CacheInv.bget {c c' : Bcache} {call : Nat → Call} {h : BioHist} {pend : List Nat}
    {p b : Nat} {i : BufId} (inv : CacheInv c call h pend) (hp : call p = .idle)
    (hb : c.bget ROOTDEV b = some (i, c')) :
    CacheInv c' (update call p (.locking i b)) h pend := by
  rcases Bcache.bget_cases inv.lru hb with ⟨hi, rfl⟩ | ⟨hnone, h0, rfl⟩
  · exact inv.hit hp hi
  · exact inv.recycle hp hnone h0

/-- `brelse` up to `releasesleep`, by the holder of a saved buffer. -/
theorem CacheInv.brelse {c : Bcache} {call : Nat → Call} {h : BioHist} {pend : List Nat}
    {p : Nat} {i : BufId} {m : Bool} (inv : CacheInv c call h pend) (hp : call p = .idle)
    (hh : (c.buf i).holder = some p) (hu : h.unsaved i = false) :
    CacheInv (c.releasesleep i) (update call p (.dropping i))
      (h.settle i (c.buf i) m) pend := by
  obtain ⟨hdev, hv⟩ := (inv.refs i).valid_of_holder hh hp
  refine (inv.settle ⟨hdev, rfl⟩ hv hu).unlock hp hh ?_
  simp [BioHist.settle]

/-! ## The invariant -/

/-- What the committing process `p` relies on. -/
structure CommitInv (lg : LogArea) (s : BioSys) (p : Nat) : Prop where
  outer : ∀ {i b}, s.pc.outer lg = some (i, b) →
    s.cache.Assigned i b ∧ (s.cache.buf i).holder = some p
  inner : ∀ {i b}, s.pc.inner lg s.ops.log.lh = some (i, b) →
    s.cache.Assigned i b ∧ ((s.cache.buf i).holder = some p ∨ s.call p = .locking i b)
  /-- It only ever waits for the buffer read last. -/
  lock : ∀ {i b}, s.call p = .locking i b → s.pc.inner lg s.ops.log.lh = some (i, b)
  apart : ∀ {i a b}, s.pc.outer lg = some (i, a) → s.pc.inner lg s.ops.log.lh = some (i, b) →
    s.call p = .locking i b
  saved : ∀ {i b}, s.pc.outer lg = some (i, b)
      ∨ s.pc.inner lg s.ops.log.lh = some (i, b) ∧ s.call p ≠ .locking i b →
    s.hist.unsaved i = true → s.pc.dirty = some i
  index : ∀ {t}, s.pc.index = some t → t < s.ops.log.lh.length
  /-- At `bunpin` the block has been written home. -/
  home : ∀ {d b}, s.pc.unpins s.ops.log.lh = some (d, b) →
    s.call p = .idle ∧ s.pc.inner lg s.ops.log.lh = some (d, b)
    ∧ s.cache.disk b = (s.cache.buf d).data

structure BioInv (lg : LogArea) (s : BioSys) : Prop where
  group : GroupInv s.ops
  cache : CacheInv s.cache s.call s.hist s.pend
  /-- Outside a commit the committer's place is the start. -/
  rest : (∀ p ph, s.ops.pc p ≠ .commit ph) → s.pc = .test
  commit : ∀ {p ph}, s.ops.pc p = .commit ph → s.pc.phase = ph ∧ CommitInv lg s p
  /-- Pins taken are pins dropped, and one more for a pending block. -/
  pins : ∀ b, s.hist.taken b = s.hist.dropped b + if b ∈ s.pend then 1 else 0

theorem bioInv_init (lg : LogArea) (d : Disk) : BioInv lg (BioSys.init lg d) where
  group := groupInv_init lg.size
  cache := by
    refine ⟨fun i => by simp [BioSys.init, binit], fun i => ?_, fun i => ?_, ?_, fun _ => rfl,
      fun hb => (by cases hb), nodup_nil⟩
    · exact ⟨⟨∅, fun p => by simp [BioSys.init, Call.Uses], rfl⟩, fun _ => trivial,
        fun h => (by cases h), fun h => (by cases h)⟩
    · exact ⟨fun h => (by cases h), fun _ h => (by cases h), fun _ h => (by cases h)⟩
    · intro i j b hi
      cases hi.1
  rest _ := rfl
  commit h := by cases h
  pins b := rfl

section Frame

variable {lg : LogArea} {s s' : BioSys} {p : Nat}

/-- Steps of other processes keep what the committer relies on. -/
theorem CommitInv.frame (h : CommitInv lg s p) (hpc : s'.pc = s.pc)
    (hlh : s'.ops.log.lh = s.ops.log.lh) (hcall : s'.call p = s.call p)
    (hinv : CacheInv s'.cache s'.call s'.hist s'.pend)
    (hu : Undisturbed p s.cache s'.cache)
    (hun : ∀ i, (s.cache.buf i).holder = some p → s'.hist.unsaved i = s.hist.unsaved i) :
    CommitInv lg s' p := by
  have hasg : ∀ {i b}, (s.cache.buf i).holder = some p → s.cache.Assigned i b →
      s'.cache.Assigned i b := by
    intro i b hh ha
    obtain ⟨hdev, hno, -, -⟩ := Buf.face_eq (hu.face i hh)
    exact ⟨hdev.trans ha.1, hno.trans ha.2⟩
  constructor
  · intro i b hi
    rw [hpc] at hi
    obtain ⟨ha, hh⟩ := h.outer hi
    exact ⟨hasg hh ha, (hu.holder i).mpr hh⟩
  · intro i b hi
    rw [hpc, hlh] at hi
    obtain ⟨ha, hh | hl⟩ := h.inner hi
    · exact ⟨hasg hh ha, .inl ((hu.holder i).mpr hh)⟩
    · rw [← hcall] at hl
      exact ⟨(hinv.refs i).locking hl, .inr hl⟩
  · intro i b hl
    rw [hcall] at hl
    rw [hpc, hlh]
    exact h.lock hl
  · intro i a b ho hi
    rw [hpc] at ho hi
    rw [hlh] at hi
    rw [hcall]
    exact h.apart ho hi
  · intro i b hor hun'
    rw [hpc, hlh, hcall] at hor
    have hh : (s.cache.buf i).holder = some p := by
      rcases hor with ho | ⟨hi, hl⟩
      · exact (h.outer ho).2
      · exact (h.inner hi).2.resolve_right hl
    rw [hun i hh] at hun'
    rw [hpc]
    exact h.saved hor hun'
  · intro t ht
    rw [hpc] at ht
    rw [hlh]
    exact h.index ht
  · intro d b hd
    rw [hpc, hlh] at hd
    obtain ⟨hidle, hi, hdisk⟩ := h.home hd
    obtain ⟨ha, hh | hl⟩ := h.inner hi
    · have hface := Buf.face_eq (hu.face d hh)
      have hd' := hu.disk d hh
      rw [ha.2] at hd'
      grind
    · rw [hidle] at hl
      cases hl

/-- A step of process `q` on the cache, framed for everybody else. -/
theorem BioInv.of_step (inv : BioInv lg s) {c' : Bcache} {call' : Nat → Call} {h' : BioHist}
    (q : Nat) (hcache : CacheInv c' call' h' s.pend) (ht : h'.taken = s.hist.taken)
    (hd : h'.dropped = s.hist.dropped) (hcall : ∀ p ≠ q, call' p = s.call p)
    (hu : ∀ p ≠ q, Undisturbed p s.cache c')
    (hun : ∀ p ≠ q, ∀ i, (s.cache.buf i).holder = some p → h'.unsaved i = s.hist.unsaved i)
    (hown : ∀ ph, s.ops.pc q = .commit ph →
      CommitInv lg { s with cache := c', call := call', hist := h' } q) :
    BioInv lg { s with cache := c', call := call', hist := h' } := by
  refine ⟨inv.group, hcache, inv.rest, fun {p ph} hpc => ?_, fun b => ?_⟩
  · obtain ⟨hphase, hci⟩ := inv.commit hpc
    refine ⟨hphase, ?_⟩
    by_cases hpq : p = q
    · subst hpq
      exact hown ph hpc
    · exact hci.frame rfl rfl (hcall p hpq) hcache (hu p hpq) (hun p hpq)
  · rw [ht, hd]
    exact inv.pins b

theorem BioSys.Client.not_committing {ph : CommitPhase} {P : Prop} (h : s.Client p)
    (hpc : s.ops.pc p = .commit ph) : P := by
  rcases h.2 with h | h <;> rw [h] at hpc <;> cases hpc

end Frame

/-! ## The committing process inside `bread` and `brelse` -/

section Own

variable {lg : LogArea} {s : BioSys} {p : Nat} {i : BufId} {b : Nat}

theorem CommitInv.acquire (h : CommitInv lg s p)
    (hinv : CacheInv s.cache s.call s.hist s.pend) (hp : s.call p = .locking i b)
    (hfree : (s.cache.buf i).holder = none) :
    CommitInv lg
      { s with
        cache := s.cache.acquiresleep p i
        call := update s.call p (.filling i b) } p := by
  have hasg : ∀ {j d}, (s.cache.acquiresleep p i).Assigned j d ↔ s.cache.Assigned j d :=
    Bcache.assigned_of_face (s.cache.set_field (i := i)
      (x := { s.cache.buf i with holder := some p }) Buf.face rfl) _ _
  have hself : ((s.cache.acquiresleep p i).buf i).holder = some p := by
    rw [Bcache.acquiresleep, Bcache.set_self]
  have hother : ∀ {j}, j ≠ i →
      ((s.cache.acquiresleep p i).buf j) = s.cache.buf j := fun hj => s.cache.set_of_ne hj _
  have hlast := h.lock hp
  have hfill : update s.call p (Call.filling i b) p = .filling i b :=
    update_self ..
  have hne : ∀ {j a}, s.pc.outer lg = some (j, a) → j ≠ i := by
    rintro j a ho rfl
    have := (h.outer ho).2
    rw [hfree] at this
    cases this
  constructor
  · intro j a ho
    obtain ⟨ha, hh⟩ := h.outer ho
    grind
  · intro j a hi
    have hja : (i, b) = (j, a) := some.inj (hlast.symm.trans hi)
    obtain ⟨rfl, rfl⟩ := Prod.mk.inj hja
    exact ⟨hasg.mpr (h.inner hi).1, .inl hself⟩
  · intro j a hl
    cases hfill.symm.trans hl
  · grind
  · intro j a hor hun
    rcases hor with ho | ⟨hi, -⟩
    · exact h.saved (.inl ho) hun
    · have hja : (i, b) = (j, a) := some.inj (hlast.symm.trans hi)
      obtain ⟨rfl, rfl⟩ := Prod.mk.inj hja
      rw [(hinv.data i).not_unsaved ((hinv.refs i).not_touched hfree)] at hun
      cases hun
  · exact h.index
  · intro d a hd
    have := (h.home hd).1
    rw [hp] at this
    cases this

/-- The own call moves on and no held buffer changes hands. -/
theorem CommitInv.own {c' : Bcache} {y : Call} (h : CommitInv lg s p)
    (hp : s.call p ≠ .idle) (hl : ∀ j d, s.call p ≠ .locking j d) (hy : ∀ j d, y ≠ .locking j d)
    (hholder : ∀ j, (c'.buf j).holder = (s.cache.buf j).holder)
    (hasg : ∀ j d, c'.Assigned j d ↔ s.cache.Assigned j d) :
    CommitInv lg { s with cache := c', call := update s.call p y } p := by
  constructor
  · intro j a ho
    obtain ⟨ha, hh⟩ := h.outer ho
    grind
  · intro j a hi
    obtain ⟨ha, hh | hl'⟩ := h.inner hi
    · grind
    · exact absurd hl' (hl j a)
  · grind
  · intro j a d ho hi
    exact absurd (h.apart ho hi) (hl j d)
  · intro j a hor hun
    refine h.saved (hor.imp id fun ⟨hi, _⟩ => ⟨hi, hl j a⟩) hun
  · exact h.index
  · intro d a hd
    exact absurd (h.home hd).1 hp

end Own

/-! ## Client moves -/

section Clients

variable {lg : LogArea} {s : BioSys} {p : Nat} {i : BufId} {b : Nat} {c : Bcache}

theorem BioInv.bget (inv : BioInv lg s) (hp : s.Client p)
    (hb : s.cache.bget ROOTDEV b = some (i, c)) :
    BioInv lg { s with cache := c, call := update s.call p (.locking i b) } :=
  inv.of_step p (inv.cache.bget hp.1 hb) rfl rfl (fun _ hq => update_of_ne hq ..)
    (fun _ _ => undisturbed_bget inv.cache hb) (fun _ _ _ _ => rfl)
    fun _ hpc => hp.not_committing hpc

theorem BioInv.acquire (inv : BioInv lg s) (hp : s.call p = .locking i b)
    (hh : (s.cache.buf i).holder = none) :
    BioInv lg
      { s with
        cache := s.cache.acquiresleep p i
        call := update s.call p (.filling i b) } := by
  refine inv.of_step p (inv.cache.acquire hp hh) rfl rfl
    (fun _ hq => update_of_ne hq ..) (fun q hq => ?_) (fun _ _ _ _ => rfl)
    fun ph hpc => (inv.commit hpc).2.acquire inv.cache hp hh
  exact undisturbed_set (by simp [hh]) (by simp [Ne.symm hq])

theorem BioInv.fill (inv : BioInv lg s) (hp : s.call p = .filling i b) :
    BioInv lg { s with cache := s.cache.fill i, call := update s.call p .idle } := by
  have hh := ((inv.cache.refs i).filling hp).2.1
  refine inv.of_step p (inv.cache.fill hp).1 rfl rfl
    (fun _ hq => update_of_ne hq ..)
    (fun _ hq => undisturbed_fill (by simp [hh, Ne.symm hq])) (fun _ _ _ _ => rfl)
    fun ph hpc => ?_
  exact (inv.commit hpc).2.own (by simp [hp]) (by simp [hp]) (by simp)
    (s.cache.fill_field Buf.holder fun _ _ _ => rfl)
    fun j d => iff_of_eq (s.cache.fill_field (fun x => x.IsOf d) (fun _ _ _ => rfl) j)

theorem BioInv.drop (inv : BioInv lg s) (hp : s.call p = .dropping i) :
    BioInv lg { s with cache := s.cache.drop i, call := update s.call p .idle } := by
  refine inv.of_step p (inv.cache.drop hp) rfl rfl (fun _ hq => update_of_ne hq ..)
    (fun _ _ => undisturbed_drop) (fun _ _ _ _ => rfl) fun ph hpc => ?_
  exact (inv.commit hpc).2.own (by simp [hp]) (by simp [hp]) (by simp)
    (s.cache.drop_field Buf.holder fun _ _ => rfl)
    fun j d => iff_of_eq (s.cache.drop_field (fun x => x.IsOf d) (fun _ _ => rfl) j)

theorem BioInv.modify {d : Block} (inv : BioInv lg s) (hp : s.Client p)
    (hh : (s.cache.buf i).holder = some p) : BioInv lg (s.store i d s.pc) := by
  refine inv.of_step p (inv.cache.store hp.1 hh d) rfl rfl (fun _ _ => rfl)
    (fun q hq => ?_) (fun q hq j hj => ?_) fun _ hpc => hp.not_committing hpc
  · exact undisturbed_set (by simp [hh, Ne.symm hq]) (by simp [hh, Ne.symm hq])
  · refine update_of_ne ?_ ..
    grind

/-- Saving a buffer concerns its holder only. -/
theorem save_unsaved {q : Nat} {j : BufId} (hh : (s.cache.buf i).holder = some p) (hq : q ≠ p)
    (hj : (s.cache.buf j).holder = some q) : (s.hist.save i).unsaved j = s.hist.unsaved j := by
  refine update_of_ne ?_ ..
  rintro rfl
  rw [hh] at hj
  exact hq (some.inj hj).symm

theorem BioInv.bwrite (inv : BioInv lg s) (hp : s.Client p)
    (hh : (s.cache.buf i).holder = some p) :
    BioInv lg { s with cache := s.cache.bwrite i, hist := s.hist.save i } := by
  refine inv.of_step p (inv.cache.bwrite hp.1 hh) rfl rfl (fun _ _ => rfl) (fun q hq => ?_)
    (fun _ hq _ hj => save_unsaved hh hq hj) fun _ hpc => hp.not_committing hpc
  exact undisturbed_bwrite inv.cache ((inv.cache.refs i).holder hh).1
    (by simp [hh, Ne.symm hq])

/-- While an operation is outstanding nobody commits. -/
theorem BioInv.not_committing (inv : BioInv lg s) (hout : 1 ≤ s.ops.log.outstanding) :
    ∀ p ph, s.ops.pc p ≠ .commit ph := by
  intro p ph hpc
  have hc := inv.group.committer.mpr ⟨p, by rw [hpc]; trivial⟩
  have := inv.group.quiet hc
  omega

/-- Then every logged block is pending. -/
theorem BioInv.pend_eq (inv : BioInv lg s) (hout : 1 ≤ s.ops.log.outstanding) :
    s.pend = s.ops.log.lh := by
  unfold BioSys.pend
  rw [inv.rest (inv.not_committing hout)]
  rfl

theorem BioInv.absorbed (inv : BioInv lg s) (hp : s.Client p)
    (hh : (s.cache.buf i).holder = some p) (hout : 1 ≤ s.ops.log.outstanding)
    (hb : (s.cache.buf i).blockno ∈ s.ops.log.lh) :
    BioInv lg { s with hist := s.hist.save i } := by
  refine inv.of_step p (inv.cache.absorb ⟨((inv.cache.refs i).holder hh).1, rfl⟩ ?_) rfl rfl
    (fun _ _ => rfl) (fun q hq => ?_) (fun _ hq _ hj => save_unsaved hh hq hj)
    fun _ hpc => hp.not_committing hpc
  · rw [inv.pend_eq hout]
    exact hb
  · constructor <;> grind

theorem BioInv.brelse (inv : BioInv lg s) (hp : s.Client p)
    (hu : s.hist.unsaved i = false) (hh : (s.cache.buf i).holder = some p) :
    BioInv lg
      { s with
        cache := s.cache.releasesleep i
        call := update s.call p (.dropping i)
        hist := s.hist.settle i (s.cache.buf i) false } := by
  refine inv.of_step p (inv.cache.brelse hp.1 hh hu) rfl rfl
    (fun _ hq => update_of_ne hq ..) (fun q hq => ?_) (fun _ _ _ _ => rfl)
    fun _ hpc => hp.not_committing hpc
  exact undisturbed_set (by simp [hh, Ne.symm hq]) (by simp)

end Clients

/-! ## Sections of the log -/

section Ops

variable {lg : LogArea} {s : BioSys} {p : Nat} {i : BufId}

theorem BioInv.logged (inv : BioInv lg s) (hp : s.Client p)
    (hh : (s.cache.buf i).holder = some p) (hout : 1 ≤ s.ops.log.outstanding)
    (hb : (s.cache.buf i).blockno ∉ s.ops.log.lh) :
    BioInv lg
      { s with
        ops := { s.ops with log := { s.ops.log with
          lh := s.ops.log.lh ++ [(s.cache.buf i).blockno] } }
        cache := s.cache.bpin i
        hist := { s.hist.save i with
          taken := update s.hist.taken (s.cache.buf i).blockno
            (s.hist.taken (s.cache.buf i).blockno + 1) } } := by
  have hnot := inv.not_committing hout
  have hpc := inv.rest hnot
  have hpend := inv.pend_eq hout
  have hdev := ((inv.cache.refs i).holder hh).1
  have hpend' : ∀ lh, CommitPc.pend lh s.pc = lh := by
    intro lh
    rw [hpc]
    rfl
  -- somebody is inside an operation, so the section is one `GroupInv` knows
  obtain ⟨q, hq⟩ : ∃ q, s.ops.pc q = .inOp := by
    obtain ⟨S, hS, hcard⟩ := inv.group.outstanding
    obtain ⟨q, hq⟩ := Finset.card_pos.mp (show 0 < S.card by omega)
    exact ⟨q, (hS q).mp hq⟩
  refine ⟨inv.group.logged hq, ?_, fun _ => hpc, fun h => absurd h (hnot _ _), fun b => ?_⟩
  · have hpin := inv.cache.pin ⟨hdev, rfl⟩ hp.1 hh (by rw [hpend]; exact hb)
    rw [BioSys.pend, hpend', ← hpend]
    exact hpin.of_hist rfl rfl rfl
  · have hpins := inv.pins b
    show update s.hist.taken _ _ b = s.hist.dropped b + _
    rw [BioSys.pend, hpend']
    grind

/-- A section that moves no process into or inside `commit()` and keeps
the header. -/
theorem BioInv.of_ops {ops : LogSys} (inv : BioInv lg s) (hg : GroupInv ops)
    (hlh : ops.log.lh = s.ops.log.lh)
    (hpc : ∀ q ph, ops.pc q = .commit ph ↔ s.ops.pc q = .commit ph) :
    BioInv lg { s with ops := ops } := by
  have hpend : BioSys.pend { s with ops := ops } = s.pend := by
    simp only [BioSys.pend, hlh]
  refine ⟨hg, by rw [hpend]; exact inv.cache, fun h => ?_, fun {q ph} h => ?_, ?_⟩
  · exact inv.rest fun q ph hq => h q ph ((hpc q ph).mpr hq)
  · obtain ⟨hph, hci⟩ := inv.commit ((hpc q ph).mp h)
    exact ⟨hph, hci.frame rfl hlh rfl (by rw [hpend]; exact inv.cache)
      ⟨fun _ => Iff.rfl, fun _ _ => rfl, fun _ _ => rfl⟩ fun _ _ => rfl⟩
  · rw [hpend]
    exact inv.pins

theorem setPc_commit_iff {ops : LogSys} {c : OpPc} (h : ∀ ph, ops.pc p ≠ .commit ph)
    (hc : ∀ ph, c ≠ .commit ph) (q : Nat) (ph : CommitPhase) :
    (ops.setPc p c).pc q = .commit ph ↔ ops.pc q = .commit ph := by
  by_cases hq : q = p
  · simp_all
  · rw [ops.setPc_pc_of_ne hq]

theorem BioInv.beginOp {ops : LogSys} (inv : BioInv lg s) (hm : LogMove s.ops (.beginOp p) ops) :
    BioInv lg { s with ops := ops } := by
  have hg := groupInv_move inv.group hm
  cases hm with
  | admitted hpc h =>
    refine inv.of_ops hg rfl (setPc_commit_iff (fun ph => ?_) (by simp))
    rcases hpc with hpc | hpc <;> simp [hpc]
  | sleeps hpc h =>
    refine inv.of_ops hg rfl (setPc_commit_iff (fun ph => ?_) (by simp))
    rcases hpc with hpc | hpc <;> simp [hpc]

theorem BioInv.kill {ops : LogSys} (inv : BioInv lg s) (hm : LogMove s.ops (.kill p) ops) :
    BioInv lg { s with ops := ops } := by
  have hg := groupInv_move inv.group hm
  cases hm with
  | kill hpc => exact inv.of_ops hg rfl (setPc_commit_iff (by simp [hpc]) (by simp))

theorem BioInv.endOp {ops : LogSys} (inv : BioInv lg s) (hp : s.call p = .idle)
    (hm : LogMove s.ops (.endOp p) ops) : BioInv lg { s with ops := ops } := by
  have hg := groupInv_move inv.group hm
  cases hm with
  | logCommitting hpc h => exact inv.of_ops hg rfl fun _ _ => Iff.rfl
  | lastOp hpc hc h =>
    -- the process becomes the committer, at the start of `commit()`
    have hnot := inv.not_committing (show 1 ≤ s.ops.log.outstanding by omega)
    have hrest := inv.rest hnot
    refine ⟨hg, inv.cache, fun _ => hrest, fun {q ph} hq => ?_, inv.pins⟩
    by_cases hqp : q = p
    · subst hqp
      rw [LogSys.setPc_pc_self] at hq
      obtain rfl := OpPc.commit.inj hq
      refine ⟨congrArg CommitPc.phase hrest, ?_⟩
      constructor <;> simp [hrest, hp, CommitPc.outer, CommitPc.inner, CommitPc.index,
        CommitPc.unpins]
    · simp_all [LogSys.setPc_pc_of_ne _ hqp]
  | leaves hpc hc h =>
    refine inv.of_ops hg rfl fun q ph => ?_
    rw [setPc_commit_iff]
    · exact LogSys.wakeup_pc (by simp) (by simp)
    · intro ph hcom
      rw [LogSys.wakeup_pc (by simp) (by simp)] at hcom
      simp [hpc] at hcom
    · simp

theorem BioInv.endCommit {ops : LogSys} (inv : BioInv lg s)
    (hm : LogMove s.ops (.endCommit p) ops) : BioInv lg { s with ops := ops } := by
  have hg := groupInv_move inv.group hm
  cases hm with
  | endCommit hpc =>
    refine inv.of_ops hg rfl fun q ph => ?_
    rw [Xv6.endCommit, setPc_commit_iff]
    · exact LogSys.wakeup_pc (by simp) (by simp)
    · intro ph hcom
      rw [LogSys.wakeup_pc (by simp) (by simp)] at hcom
      simp [hpc] at hcom
    · simp

end Ops

/-! ## The calls of `commit()` -/

section Commit

variable {lg : LogArea} {s s' : BioSys} {p : Nat} {ph : CommitPhase} {i : BufId} {k : CommitPc}

/-- Between two calls the buffer read last is held. -/
theorem CommitInv.inner_held {b : Nat} (h : CommitInv lg s p) (hp : s.call p = .idle)
    (hi : s.pc.inner lg s.ops.log.lh = some (i, b)) :
    s.cache.Assigned i b ∧ (s.cache.buf i).holder = some p := by
  obtain ⟨ha, hh | hl⟩ := h.inner hi
  · exact ⟨ha, hh⟩
  · rw [hp] at hl
    cases hl

/-- A call of `commit()` that leaves the log's variables alone: there is
one committer, so only its own knowledge is in question. -/
theorem BioInv.of_commit (inv : BioInv lg s) (hpc : s.ops.pc p = .commit ph)
    (hops : s'.ops = s.ops) (hphase : s'.pc.phase = s.pc.phase)
    (hcache : CacheInv s'.cache s'.call s'.hist s'.pend) (hci : CommitInv lg s' p)
    (hpins : ∀ b, s'.hist.taken b = s'.hist.dropped b + if b ∈ s'.pend then 1 else 0) :
    BioInv lg s' := by
  refine ⟨by rw [hops]; exact inv.group, hcache, fun h => ?_, fun {q ph'} hq => ?_, hpins⟩
  · grind
  · rw [hops] at hq
    obtain rfl := inv.group.unique q p (by rw [hq]; trivial) (by rw [hpc]; trivial)
    exact ⟨by rw [hphase]; exact (inv.commit hq).1, hci⟩

theorem BioInv.commitBget {b : Nat} {k : BufId → CommitPc} {c : Bcache} (inv : BioInv lg s)
    (hp : s.call p = .idle) (hpc : s.ops.pc p = .commit ph)
    (hin : s.pc.instr lg s.ops.log.lh = .bread b k)
    (hb : s.cache.bget ROOTDEV b = some (i, c)) :
    BioInv lg
      { s with cache := c, call := update s.call p (.locking i b), pc := k i } := by
  have hflow := s.pc.flow lg s.ops.log.lh
  rw [hin] at hflow
  obtain ⟨-, hdirty, hk⟩ := hflow
  obtain ⟨hout, hinn, hkd, hkun, hpend, hphase, hidx⟩ := hk i
  have ci := (inv.commit hpc).2
  have hcache : CacheInv c (update s.call p (.locking i b)) s.hist
      ((k i).pend s.ops.log.lh) := by
    rw [hpend]
    exact inv.cache.bget hp hb
  have hself : update s.call p (Call.locking i b) p = .locking i b :=
    update_self ..
  have hu : Undisturbed p s.cache c := undisturbed_bget inv.cache hb
  refine inv.of_commit hpc rfl hphase hcache ?_ ?_
  · constructor
    · intro j a ho
      have ho' := hout.symm.trans ho
      obtain ⟨ha, hh⟩ := ci.inner_held hp ho'
      obtain ⟨hdev, hno, -, -⟩ := Buf.face_eq (hu.face j hh)
      exact ⟨⟨hdev.trans ha.1, hno.trans ha.2⟩, (hu.holder j).mpr hh⟩
    · intro j a hi
      obtain ⟨rfl, rfl⟩ := Prod.mk.inj (some.inj (hinn.symm.trans hi))
      exact ⟨(hcache.refs i).locking hself, .inr hself⟩
    · grind
    · grind
    · intro j a hor hun
      rcases hor with ho | ⟨hi, hl⟩
      · have := ci.saved (.inr ⟨hout.symm.trans ho, by simp [hp]⟩) hun
        rw [hdirty] at this
        cases this
      · grind
    · intro t ht
      rcases hidx t ht with h | h
      · exact h
      · exact ci.index h
    · intro d a hd
      cases hkun.symm.trans hd
  · intro d
    have := inv.pins d
    rw [BioSys.pend, ← hpend] at this
    exact this

/-- Copying into one of the two buffers. -/
theorem BioInv.commitStore {b : Nat} {d : Block} (inv : BioInv lg s)
    (hp : s.call p = .idle) (hpc : s.ops.pc p = .commit ph)
    (hsame : s.pc.Same lg s.ops.log.lh k) (hdirty : s.pc.dirty = none) (hkd : k.dirty = some i)
    (hkun : k.unpins s.ops.log.lh = none) (hpend : k.pend s.ops.log.lh = s.pc.pend s.ops.log.lh)
    (hb : s.pc.outer lg = some (i, b) ∨ s.pc.inner lg s.ops.log.lh = some (i, b)) :
    BioInv lg (s.store i d k) := by
  have ci := (inv.commit hpc).2
  have hh : (s.cache.buf i).holder = some p := by
    rcases hb with ho | hi
    · exact (ci.outer ho).2
    · exact (ci.inner_held hp hi).2
  have hasg : ∀ {j a}, (s.cache.store i d).Assigned j a ↔ s.cache.Assigned j a := fun {j a} =>
    iff_of_eq (s.cache.set_field (i := i) (x := { s.cache.buf i with data := d })
      (fun x => x.IsOf a) rfl j)
  have hholder : ∀ j, ((s.cache.store i d).buf j).holder = (s.cache.buf j).holder :=
    s.cache.set_field (i := i) (x := { s.cache.buf i with data := d }) Buf.holder rfl
  have hnd : ∀ {j a}, s.pc.outer lg = some (j, a)
      ∨ s.pc.inner lg s.ops.log.lh = some (j, a) ∧ s.call p ≠ .locking j a →
      s.hist.unsaved j ≠ true := by
    intro j a hor hun
    have := ci.saved hor hun
    rw [hdirty] at this
    cases this
  refine inv.of_commit hpc rfl hsame.phase ?_ ?_ ?_
  · show CacheInv _ _ _ (k.pend s.ops.log.lh)
    rw [hpend]
    exact inv.cache.store hp hh d
  · constructor
    · intro j a ho
      obtain ⟨ha, hj⟩ := ci.outer (hsame.outer.symm.trans ho)
      exact ⟨hasg.mpr ha, (hholder j).trans hj⟩
    · intro j a hi
      obtain ⟨ha, hj⟩ := ci.inner_held hp (hsame.inner.symm.trans hi)
      exact ⟨hasg.mpr ha, .inl ((hholder j).trans hj)⟩
    · intro j a hl
      cases hp.symm.trans hl
    · intro j a e ho hi
      exact ci.apart (hsame.outer.symm.trans ho) (hsame.inner.symm.trans hi)
    · intro j a hor hun
      by_cases hji : j = i
      · rw [hji]
        exact hkd
      · refine absurd ?_ (hnd (a := a) (j := j) ?_)
        · exact (s.hist.touch_unsaved_of_ne hji).symm.trans hun
        · exact hor.imp (fun ho => hsame.outer.symm.trans ho)
            fun ⟨hi, hl⟩ => ⟨hsame.inner.symm.trans hi, hl⟩
    · intro t ht
      exact ci.index (hsame.index.symm.trans ht)
    · intro e a hd
      cases hkun.symm.trans hd
  · intro e
    have := inv.pins e
    rw [BioSys.pend, ← hpend] at this
    exact this

theorem BioInv.commitBwrite (inv : BioInv lg s) (hp : s.call p = .idle)
    (hpc : s.ops.pc p = .commit ph) (hin : s.pc.instr lg s.ops.log.lh = .bwrite i k)
    (hh : (s.cache.buf i).holder = some p) :
    BioInv lg { s with cache := s.cache.bwrite i, hist := s.hist.save i, pc := k } := by
  have hflow := s.pc.flow lg s.ops.log.lh
  rw [hin] at hflow
  obtain ⟨hsame, hdirty, hkd, hpend, hhome⟩ := hflow
  have ci := (inv.commit hpc).2
  refine inv.of_commit hpc rfl hsame.phase ?_ ?_ ?_
  · show CacheInv _ _ _ (k.pend s.ops.log.lh)
    rw [hpend]
    exact inv.cache.bwrite hp hh
  · constructor
    · intro j a ho
      exact ci.outer (hsame.outer.symm.trans ho)
    · intro j a hi
      exact ci.inner (hsame.inner.symm.trans hi)
    · intro j a hl
      cases hp.symm.trans hl
    · intro j a e ho hi
      exact ci.apart (hsame.outer.symm.trans ho) (hsame.inner.symm.trans hi)
    · intro j a hor hun
      -- only the buffer just written was unsaved
      have hji : j ≠ i := by grind [s.hist.save_unsaved_self]
      have hd := ci.saved (hor.imp (fun ho => hsame.outer.symm.trans ho)
        fun ⟨hi, hl⟩ => ⟨hsame.inner.symm.trans hi, hl⟩)
        ((s.hist.save_unsaved_of_ne hji).symm.trans hun)
      grind
    · intro t ht
      exact ci.index (hsame.index.symm.trans ht)
    · intro d b hd
      obtain ⟨rfl, hi⟩ := hhome d b hd
      have hb := (ci.inner_held hp hi).1.2
      refine ⟨hp, hsame.inner.trans hi, ?_⟩
      rw [← hb]
      exact update_self ..
  · intro e
    have := inv.pins e
    rw [BioSys.pend, ← hpend] at this
    exact this

/-- A step of the committer that keeps its buffers and their marks. -/
theorem CommitInv.of_same {c' : Bcache} {h' : BioHist} (ci : CommitInv lg s p)
    (hp : s.call p = .idle) (hsame : s.pc.Same lg s.ops.log.lh k)
    (hkd : k.dirty = s.pc.dirty) (hkun : k.unpins s.ops.log.lh = none)
    (hasg : ∀ j a, c'.Assigned j a ↔ s.cache.Assigned j a)
    (hholder : ∀ j, (c'.buf j).holder = (s.cache.buf j).holder)
    (hun : h'.unsaved = s.hist.unsaved) :
    CommitInv lg { s with cache := c', hist := h', pc := k } p := by
  constructor
  · intro j a ho
    obtain ⟨ha, hj⟩ := ci.outer (hsame.outer.symm.trans ho)
    grind
  · intro j a hi
    obtain ⟨ha, hj⟩ := ci.inner_held hp (hsame.inner.symm.trans hi)
    grind
  · intro j a hl
    cases hp.symm.trans hl
  · intro j a e ho hi
    exact ci.apart (hsame.outer.symm.trans ho) (hsame.inner.symm.trans hi)
  · intro j a hor hu
    refine hkd.trans (ci.saved (b := a) ?_ ((congrFun hun j).symm.trans hu))
    exact hor.imp (fun ho => hsame.outer.symm.trans ho)
      fun ⟨hi, hl⟩ => ⟨hsame.inner.symm.trans hi, hl⟩
  · intro t ht
    exact ci.index (hsame.index.symm.trans ht)
  · intro d b hd
    cases hkun.symm.trans hd

theorem BioInv.commitBunpin (inv : BioInv lg s) (hp : s.call p = .idle)
    (hpc : s.ops.pc p = .commit ph) (hin : s.pc.instr lg s.ops.log.lh = .bunpin i k) :
    BioInv lg (s.bunpin i k) := by
  have hflow := s.pc.flow lg s.ops.log.lh
  rw [hin] at hflow
  obtain ⟨hsame, hdirty, hkd, hkun, t, ht, hunp, hinn, hpend, hpend'⟩ := hflow
  have ci := (inv.commit hpc).2
  have hlt := ci.index ht
  have hhome := (ci.home hunp).2.2
  obtain ⟨hasg, -⟩ := ci.inner_held hp hinn
  -- the head of the pending list goes
  have hget : s.ops.log.lh.getD t 0 = s.ops.log.lh[t] := by
    simp [getD_eq_getElem?_getD, hlt]
  have hsplit : s.pend = s.ops.log.lh.getD t 0 :: s.ops.log.lh.drop (t + 1) := by
    rw [BioSys.pend, hpend, hget, drop_eq_getElem_cons hlt]
  have hcache := inv.cache
  rw [hsplit] at hcache
  have hnot : s.ops.log.lh.getD t 0 ∉ s.ops.log.lh.drop (t + 1) :=
    (nodup_cons.mp hcache.nodup).1
  refine inv.of_commit hpc rfl hsame.phase ?_ ?_ ?_
  · show CacheInv _ _ _ (k.pend s.ops.log.lh)
    rw [hpend']
    exact (hcache.unpin hasg hhome).of_hist rfl rfl rfl
  · refine ci.of_same hp hsame (hkd.trans hdirty.symm) hkun (fun j a => ?_) (fun j => ?_) rfl
    · exact iff_of_eq (s.cache.set_field (i := i)
        (x := { s.cache.buf i with refcnt := (s.cache.buf i).refcnt - 1 })
        (fun x => x.IsOf a) rfl j)
    · exact s.cache.set_field (i := i)
        (x := { s.cache.buf i with refcnt := (s.cache.buf i).refcnt - 1 }) Buf.holder rfl j
  · intro b
    have hpins := inv.pins b
    show s.hist.taken b = update s.hist.dropped (s.cache.buf i).blockno _ b
      + if b ∈ k.pend s.ops.log.lh then 1 else 0
    rw [hpend', hpins, hasg.2]
    grind

theorem BioInv.commitBrelse (inv : BioInv lg s) (hp : s.call p = .idle)
    (hpc : s.ops.pc p = .commit ph) (hin : s.pc.instr lg s.ops.log.lh = .brelse i k)
    (hh : (s.cache.buf i).holder = some p) :
    BioInv lg
      { s with
        cache := s.cache.releasesleep i
        call := update s.call p (.dropping i)
        hist := s.hist.settle i (s.cache.buf i) true
        pc := k } := by
  have hflow := s.pc.flow lg s.ops.log.lh
  rw [hin] at hflow
  obtain ⟨hdirty, hkd, hkun, hpend, hphase, hkout, hidx, b, hb⟩ := hflow
  have ci := (inv.commit hpc).2
  have hclean : ∀ {j a}, s.pc.outer lg = some (j, a) ∨ s.pc.inner lg s.ops.log.lh = some (j, a) →
      s.hist.unsaved j = false := by
    intro j a hor
    cases hu : s.hist.unsaved j with
    | false => rfl
    | true =>
      have := ci.saved (hor.imp id fun hi => ⟨hi, by simp [hp]⟩) hu
      rw [hdirty] at this
      cases this
  have hu : s.hist.unsaved i = false := by grind
  -- what is still held is the other buffer
  have hrest : ∀ {j a}, k.inner lg s.ops.log.lh = some (j, a) → j ≠ i
      ∧ (s.pc.outer lg = some (j, a) ∨ s.pc.inner lg s.ops.log.lh = some (j, a))
      ∧ s.cache.Assigned j a ∧ (s.cache.buf j).holder = some p := by
    intro j a hj
    rcases hb with ⟨hi, hk⟩ | ⟨ho, hk⟩
    · have hj' := hk.symm.trans hj
      refine ⟨?_, .inl hj', ci.outer hj'⟩
      rintro rfl
      cases hp.symm.trans (ci.apart hj' hi)
    · have hj' := hk.symm.trans hj
      refine ⟨?_, .inr hj', ci.inner_held hp hj'⟩
      rintro rfl
      cases hp.symm.trans (ci.apart ho hj')
  refine inv.of_commit hpc rfl hphase ?_ ?_ ?_
  · show CacheInv _ _ _ (k.pend s.ops.log.lh)
    rw [hpend]
    exact inv.cache.brelse hp hh hu
  · constructor
    · grind
    · intro j a hj
      obtain ⟨hji, -, ha, hjh⟩ := hrest hj
      have hbuf : (s.cache.releasesleep i).buf j = s.cache.buf j := s.cache.set_of_ne hji _
      refine ⟨?_, .inl ?_⟩
      · show ((s.cache.releasesleep i).buf j).IsOf a
        rw [hbuf]
        exact ha
      · grind
    · simp
    · grind
    · intro j a hor hun
      rcases hor with ho | ⟨hi, -⟩
      · cases hkout.symm.trans ho
      · have := hclean (hrest hi).2.1
        cases this.symm.trans hun
    · intro t ht
      exact ci.index (hidx t ht)
    · intro d a hd
      cases hkun.symm.trans hd
  · intro e
    have := inv.pins e
    rw [BioSys.pend, ← hpend] at this
    exact this

/-- Where the end of a phase leads. -/
theorem CommitPc.next_phase {ops : LogSys} {pc : CommitPc}
    (h : pc.instr lg ops.log.lh = .phase k) :
    ((commitStep ops p pc.phase).pc p = .commit k.phase
      ∨ (commitStep ops p pc.phase).pc p = .endCommit ∧ k = .test)
    ∧ k.pend (commitStep ops p pc.phase).log.lh = pc.pend ops.log.lh := by
  cases pc with
  | test =>
    simp only [CommitPc.instr, Instr.phase.injEq] at h
    subst h
    simp only [CommitPc.phase, commitStep]
    by_cases hlen : ops.log.lh.length > 0
    · simp [if_pos hlen, CommitPc.pend]
    · simp [if_neg hlen, CommitPc.pend]
  | wlTo t =>
    by_cases ht : t < ops.log.lh.length
    · simp [CommitPc.instr, ht] at h
    · simp only [CommitPc.instr, if_neg ht, Instr.phase.injEq] at h
      subst h
      simp [CommitPc.phase, commitStep, CommitPc.pend]
  | whDone e =>
    simp only [CommitPc.instr, Instr.phase.injEq] at h
    subst h
    cases e <;> simp [CommitPc.phase, commitStep, CommitPc.pend]
  | itLog t =>
    by_cases ht : t < ops.log.lh.length
    · simp [CommitPc.instr, ht] at h
    · simp only [CommitPc.instr, if_neg ht, Instr.phase.injEq] at h
      subst h
      simp_all [CommitPc.phase, commitStep, CommitPc.pend, LogSys.setPc_pc_self, true_or, true_and]
  | clear =>
    simp only [CommitPc.instr, Instr.phase.injEq] at h
    subst h
    simp [CommitPc.phase, commitStep, CommitPc.pend]
  | _ => simp [CommitPc.instr] at h

theorem commitStep_pc_of_ne {ops : LogSys} {q : Nat} (hq : q ≠ p) (ph : CommitPhase) :
    (commitStep ops p ph).pc q = ops.pc q := by
  cases ph with
  | test =>
    rw [commitStep]
    split <;> exact LogSys.setPc_pc_of_ne _ hq _
  | _ => exact LogSys.setPc_pc_of_ne _ hq _

theorem BioInv.commitPhase (inv : BioInv lg s) (hp : s.call p = .idle)
    (hpc : s.ops.pc p = .commit ph) (hin : s.pc.instr lg s.ops.log.lh = .phase k) :
    BioInv lg { s with ops := commitStep s.ops p ph, pc := k } := by
  have hflow := s.pc.flow lg s.ops.log.lh
  rw [hin] at hflow
  obtain ⟨hout, hinn, -, hunp, hidx⟩ := hflow
  obtain ⟨rfl, -⟩ := inv.commit hpc
  obtain ⟨hnext, hpend⟩ := CommitPc.next_phase (p := p) hin
  have hothers : ∀ q ph, q ≠ p → (commitStep s.ops p s.pc.phase).pc q ≠ .commit ph := by
    intro q ph hq h
    rw [commitStep_pc_of_ne hq] at h
    exact hq (inv.group.unique q p (by rw [h]; trivial) (by rw [hpc]; trivial))
  refine ⟨groupInv_move inv.group (.commitStep hpc), ?_, fun h => ?_, fun {q ph} hq => ?_, ?_⟩
  · rw [BioSys.pend, hpend]
    exact inv.cache
  · grind
  · by_cases hqp : q = p
    · subst hqp
      have hq' : (commitStep s.ops q s.pc.phase).pc q = .commit ph := hq
      rcases hnext with hnext | ⟨hnext, -⟩
      · rw [hnext] at hq'
        refine ⟨OpPc.commit.inj hq', ?_⟩
        constructor
        · grind
        · grind
        · grind
        · grind
        · grind
        · grind
        · grind
      · rw [hnext] at hq'
        cases hq'
    · exact absurd hq (hothers q ph hqp)
  · intro b
    rw [BioSys.pend, hpend]
    exact inv.pins b

end Commit

/-! ## The invariant over a step and over a run -/

section Run

variable {lg : LogArea} {s s' : BioSys} {a : BioAct}

theorem bioInv_move (inv : BioInv lg s) (hm : BioMove lg s a s') : BioInv lg s' := by
  cases hm with
  | panic x => exact ⟨inv.group, inv.cache, inv.rest, fun h =>
    ⟨(inv.commit h).1, (inv.commit h).2.frame rfl rfl rfl inv.cache
      ⟨fun _ => Iff.rfl, fun _ _ => rfl, fun _ _ => rfl⟩ fun _ _ => rfl⟩, inv.pins⟩
  | logPanic hx =>
    refine inv.of_ops ?_ rfl fun _ _ => Iff.rfl
    have g := inv.group
    exact ⟨g.outstanding, g.committer, g.unique, g.quiet, g.empty, g.cleared, g.asleep,
      fun h => hx (some.inj h)⟩
  | bget hp hb => exact inv.bget hp hb
  | acquire hp hh => exact inv.acquire hp hh
  | fill hp => exact inv.fill hp
  | modify hp hh => exact inv.modify hp hh
  | bwrite hp hh => exact inv.bwrite hp hh
  | absorbed hp hh hout hb => exact inv.absorbed hp hh hout hb
  | logged hp hh hout hroom hb => exact inv.logged hp hh hout hb
  | brelse hp hu hh => exact inv.brelse hp hu hh
  | drop hp => exact inv.drop hp
  | beginOp hp hm => exact inv.beginOp hm
  | endOp hp hm => exact inv.endOp hp hm
  | kill hm => exact inv.kill hm
  | endCommit hp hm => exact inv.endCommit hm
  | commitBget hp hpc hin hb => exact inv.commitBget hp hpc hin hb
  | commitMove hp hpc hin =>
    have hflow := s.pc.flow lg s.ops.log.lh
    rw [hin] at hflow
    obtain ⟨hsame, hd, hkd, hkun, hpend, b, hb⟩ := hflow
    exact inv.commitStore hp hpc hsame hd hkd hkun hpend hb
  | commitHead hp hpc hin =>
    have hflow := s.pc.flow lg s.ops.log.lh
    rw [hin] at hflow
    obtain ⟨hsame, hd, hkd, hkun, hpend, b, hb⟩ := hflow
    exact inv.commitStore hp hpc hsame hd hkd hkun hpend hb
  | commitBwrite hp hpc hin hh => exact inv.commitBwrite hp hpc hin hh
  | commitBunpin hp hpc hin => exact inv.commitBunpin hp hpc hin
  | commitBrelse hp hpc hin hh => exact inv.commitBrelse hp hpc hin hh
  | commitPhase hp hpc hin => exact inv.commitPhase hp hpc hin

theorem bioInv_step (inv : BioInv lg s) (h : bioStep lg s a = some s') : BioInv lg s' :=
  bioInv_move inv (bioStep_move h).2.2

theorem bioInv_run {d : Disk} {as : List BioAct}
    (h : bioRun lg (BioSys.init lg d) as = some s) : BioInv lg s :=
  run_invariant bioInv_step (bioInv_init lg d) h

end Run

/-! ## A pinned block keeps its buffer -/

section Pinned

variable {lg : LogArea} {s s' : BioSys} {a : BioAct} {p : Nat}

/-- Sections of the log other than `log_write` keep the header. -/
theorem LogMove.lh_eq {s s' : LogSys} {p : Nat} {a : LogAct} (hm : LogMove s a s')
    (ha : a = .beginOp p ∨ a = .endOp p ∨ a = .kill p ∨ a = .endCommit p) :
    s'.log.lh = s.log.lh := by
  cases hm with
  | tooBig | outsideTrans | absorbed | logged | commitStep => simp at ha
  | _ => rfl

/-- Only `bget` can change which block a buffer is for. -/
theorem BioMove.assigned (hm : BioMove lg s a s') :
    (∀ j d, s'.cache.Assigned j d ↔ s.cache.Assigned j d)
    ∨ ∃ b i, s.cache.bget ROOTDEV b = some (i, s'.cache) := by
  have hset : ∀ {i : BufId} {x : Buf}, x.dev = (s.cache.buf i).dev →
      x.blockno = (s.cache.buf i).blockno → ∀ j d,
      (s.cache.set i x).Assigned j d ↔ s.cache.Assigned j d := by
    intro i x hdev hno j d
    refine iff_of_eq (s.cache.set_field (fun x => x.IsOf d) ?_ j)
    simp only [Buf.IsOf, hdev, hno]
  cases hm with
  | bget hp hb => exact .inr ⟨_, _, hb⟩
  | commitBget hp hpc hin hb => exact .inr ⟨_, _, hb⟩
  | acquire hp hh => exact .inl (hset rfl rfl)
  | fill hp =>
    exact .inl fun j d =>
      iff_of_eq (s.cache.fill_field (fun x => x.IsOf d) (fun _ _ _ => rfl) j)
  | modify hp hh => exact .inl (hset rfl rfl)
  | logged hp hh hout hroom hb => exact .inl (hset rfl rfl)
  | brelse hp hu hh => exact .inl (hset rfl rfl)
  | drop hp =>
    exact .inl fun j d =>
      iff_of_eq (s.cache.drop_field (fun x => x.IsOf d) (fun _ _ => rfl) j)
  | commitMove hp hpc hin => exact .inl (hset rfl rfl)
  | commitHead hp hpc hin => exact .inl (hset rfl rfl)
  | commitBunpin hp hpc hin => exact .inl (hset rfl rfl)
  | commitBrelse hp hpc hin hh => exact .inl (hset rfl rfl)
  | _ => exact .inl fun _ _ => Iff.rfl

/-- Only `bunpin` takes a block off the pending list. -/
theorem BioMove.pend (inv : BioInv lg s) (hm : BioMove lg s a s') :
    (∀ b ∈ s.pend, b ∈ s'.pend)
    ∨ ∃ i k, s.pc.instr lg s.ops.log.lh = .bunpin i k ∧ s' = s.bunpin i k
      ∧ ∃ p ph, s.ops.pc p = .commit ph ∧ s.call p = .idle := by
  have hflow := s.pc.flow lg s.ops.log.lh
  cases hm with
  | commitBunpin hp hpc hin => exact .inr ⟨_, _, hin, rfl, _, _, hpc, hp⟩
  | logged hp hh hout hroom hb =>
    refine .inl fun b hmem => ?_
    have hpc := inv.rest (inv.not_committing hout)
    simp_all [inv.pend_eq hout, BioSys.pend, hpc, CommitPc.pend]
  | beginOp hp hm =>
    simp [BioSys.pend, hm.lh_eq (.inl rfl)]
  | endOp hp hm =>
    simp [BioSys.pend, hm.lh_eq (.inr (.inl rfl))]
  | kill hm =>
    simp [BioSys.pend, hm.lh_eq (.inr (.inr (.inl rfl)))]
  | endCommit hp hm =>
    simp [BioSys.pend, hm.lh_eq (.inr (.inr (.inr rfl)))]
  | commitBget hp hpc hin hb =>
    rw [hin] at hflow
    simp [BioSys.pend, (hflow.2.2 _).2.2.2.2.1]
  | commitMove hp hpc hin =>
    rw [hin] at hflow
    simp [BioSys.pend, BioSys.store, hflow.2.2.2.2.1]
  | commitHead hp hpc hin =>
    rw [hin] at hflow
    simp [BioSys.pend, BioSys.store, hflow.2.2.2.2.1]
  | commitBwrite hp hpc hin hh =>
    rw [hin] at hflow
    simp [BioSys.pend, hflow.2.2.2.1]
  | commitBrelse hp hpc hin hh =>
    rw [hin] at hflow
    simp [BioSys.pend, hflow.2.2.2.1]
  | commitPhase hp hpc hin =>
    obtain ⟨rfl, -⟩ := inv.commit hpc
    simp [BioSys.pend, (CommitPc.next_phase hin).2]
  | _ => exact .inl fun _ hmem => hmem

/-- A step keeps the buffer of a pinned block, and the block stays
pinned until its buffer has been written home. -/
theorem BioInv.pinned_step {i : BufId} {b : Nat} (inv : BioInv lg s) (hm : BioMove lg s a s')
    (hb : b ∈ s.pend) (hi : s.cache.Assigned i b) :
    s'.cache.Assigned i b ∧ (b ∈ s'.pend ∨ s'.cache.disk b = (s'.cache.buf i).data) := by
  refine ⟨?_, ?_⟩
  · rcases hm.assigned with h | ⟨d, j, hget⟩
    · exact (h i b).mpr hi
    · rcases Bcache.bget_cases inv.cache.lru hget with ⟨-, hc⟩ | ⟨-, h0, hc⟩
      · rw [hc]
        exact (iff_of_eq (s.cache.set_field (i := j)
          (x := { s.cache.buf j with refcnt := (s.cache.buf j).refcnt + 1 })
          (fun x => x.IsOf b) rfl i)).mpr hi
      · -- a recycled buffer has no references, in particular no pin
        have hpin := ((inv.cache.refs j).of_refcnt_zero h0).2.2
        have hij : i ≠ j := by
          rintro rfl
          rw [Buf.pin, if_pos ⟨hi.1, by rw [hi.2]; exact hb⟩] at hpin
          cases hpin
        rw [hc]
        show ((s.cache.set j _).buf i).IsOf b
        rw [s.cache.set_of_ne hij]
        exact hi
  · rcases hm.pend inv with h | ⟨j, k, hin, rfl, p, ph, hpc, hp⟩
    · exact .inl (h b hb)
    · have hflow := s.pc.flow lg s.ops.log.lh
      rw [hin] at hflow
      obtain ⟨-, -, -, -, t, ht, hunp, hinn, hpend, hpend'⟩ := hflow
      have ci := (inv.commit hpc).2
      have hlt := ci.index ht
      rw [BioSys.pend, hpend, drop_eq_getElem_cons hlt, mem_cons] at hb
      have hget : s.ops.log.lh.getD t 0 = s.ops.log.lh[t] := by
        simp [getD_eq_getElem?_getD, hlt]
      rcases hb with hb | hb
      · refine .inr ?_
        rw [← hget] at hb
        subst hb
        have hji := inv.cache.unique (ci.inner_held hp hinn).1 hi
        subst hji
        have hdata : ((s.cache.bunpin j).buf j).data = (s.cache.buf j).data :=
          s.cache.set_field (i := j)
            (x := { s.cache.buf j with refcnt := (s.cache.buf j).refcnt - 1 }) Buf.data rfl j
        exact (ci.home hunp).2.2.trans hdata.symm
      · refine .inl ?_
        rw [BioSys.pend, BioSys.bunpin, hpend']
        exact hb

end Pinned

end Xv6
