import Xv6.BioPins

/-!
# The cache and the log as an array of blocks

`BioInv` says that `bread` returns what the last holder of a block left,
the committing process included. This file adds that the committing
process leaves home blocks as it found them: under the file system's
discipline, what `bread` returns for a home block is what the last
*client* left, through any number of commits and evictions.

The discipline is that home blocks are changed inside an operation that
gives them up before it ends, and the log's own blocks by nobody but
`commit()`. Recovery, which does change them, runs while there is no
operation.

During a commit nobody is inside an operation, so only the committing
process changes anything: `write_log` makes log block `t` a copy of home
block `lh[t]` (`copied`), so `install_trans` copies into a home block
what is there already (`moved`).
-/

namespace Xv6

open Function StepSystem List Option

/-! ## What `commit()` has copied -/

namespace CommitPc

/-- The buffer the committer has copied into and still holds. -/
def stored : CommitPc → Option BufId
  | .wlWrite _ dst _ | .wlRelFrom _ dst _ | .wlRelTo _ dst => some dst
  | .whWrite _ i | .whRel _ i => some i
  | .itWrite _ _ d | .itUnpin _ _ d | .itRelLog _ _ d | .itRelDst _ d => some d
  | _ => none

/-- The same, with the home block it is a copy of. -/
def moved (lh : List Nat) : CommitPc → Option (BufId × Nat)
  | .wlWrite t dst _ | .wlRelFrom t dst _ | .wlRelTo t dst => some (dst, lh.getD t 0)
  | .itWrite t _ d | .itUnpin t _ d | .itRelLog t _ d | .itRelDst t d => some (d, lh.getD t 0)
  | _ => none

/-- How many log blocks are copies of their home blocks. -/
def copied (lh : List Nat) : CommitPc → Nat
  | .wlTo t | .wlFrom t _ | .wlMove t .. | .wlWrite t .. | .wlRelFrom t .. | .wlRelTo t _ => t
  | .whRead e | .whFill e _ | .whWrite e _ | .whRel e _ | .whDone e =>
      if e then 0 else lh.length
  | .itLog _ | .itDst .. | .itMove .. | .itWrite .. | .itUnpin .. | .itRelLog .. | .itRelDst .. =>
      lh.length
  | _ => 0

/-- `k` has copied the same. -/
structure SameCopy (lh : List Nat) (pc k : CommitPc) : Prop where
  stored : k.stored = pc.stored
  moved : k.moved lh = pc.moved lh
  copied : k.copied lh = pc.copied lh

end CommitPc

/-- How one call of `commit()` passes on what has been copied. -/
def Instr.Copies (lg : LogArea) (lh : List Nat) (pc : CommitPc) : Instr → Prop
  | .bread _ k => pc.stored = none ∧ pc.moved lh = none ∧ ∀ i, pc.SameCopy lh (k i)
  | .move dst src k => pc.stored = none ∧ k.stored = some dst ∧ k.copied lh = pc.copied lh
      ∧ ∃ t, pc.index = some t ∧ k.moved lh = some (dst, lh.getD t 0)
        ∧ (pc.inner lg lh = some (src, lh.getD t 0)
          ∨ pc.outer lg = some (src, lg.start + t + 1) ∧ pc.copied lh = lh.length)
  | .setHead i k => pc.stored = none ∧ k.stored = some i ∧ k.copied lh = pc.copied lh
      ∧ k.moved lh = none
  | .bwrite _ k | .bunpin _ k => pc.SameCopy lh k
  | .brelse i k =>
      (pc.SameCopy lh k ∧ ∃ a b j, pc.stored = some j
        ∧ (pc.inner lg lh = some (i, b) ∧ pc.outer lg = some (j, a)
          ∨ pc.outer lg = some (i, b) ∧ pc.inner lg lh = some (j, a)))
      ∨ (pc.stored = some i ∧ k.stored = none ∧ k.moved lh = none
        ∧ ((∃ t, pc.index = some t ∧ pc.inner lg lh = some (i, lg.start + t + 1)
            ∧ pc.moved lh = some (i, lh.getD t 0) ∧ pc.copied lh = t ∧ k.copied lh = t + 1)
          ∨ (pc.inner lg lh = some (i, lg.start) ∧ pc.moved lh = none
            ∧ k.copied lh = pc.copied lh ∧ pc.copied lh ≤ lh.length)
          ∨ ∃ b, pc.inner lg lh = some (i, b) ∧ pc.moved lh = some (i, b)
            ∧ k.copied lh = pc.copied lh))
  | .phase k => pc.stored = none ∧ pc.moved lh = none ∧ k.stored = none
      ∧ (∀ lh', k.moved lh' = none)
      ∧ ((∀ lh', k.copied lh' = 0) ∨ k.copied lh ≤ pc.copied lh ∧ pc.phase ≠ .clear)

theorem CommitPc.copies (lg : LogArea) (lh : List Nat) (pc : CommitPc) :
    (pc.instr lg lh).Copies lg lh pc := by
  cases pc with
  | test =>
    by_cases h : lh.length > 0 <;>
      simp [CommitPc.instr, h, Instr.Copies, CommitPc.stored, CommitPc.moved, CommitPc.copied]
  | wlTo t =>
    by_cases h : t < lh.length
    · simp only [CommitPc.instr, if_pos h]
      exact ⟨rfl, rfl, fun i => ⟨rfl, rfl, rfl⟩⟩
    · simp only [CommitPc.instr, if_neg h]
      exact ⟨rfl, rfl, rfl, fun _ => rfl, .inr ⟨not_lt.mp h, by simp [CommitPc.phase]⟩⟩
  | itLog t =>
    by_cases h : t < lh.length
    · simp only [CommitPc.instr, if_pos h]
      exact ⟨rfl, rfl, fun i => ⟨rfl, rfl, rfl⟩⟩
    · simp only [CommitPc.instr, if_neg h]
      exact ⟨rfl, rfl, rfl, fun _ => rfl, .inl fun _ => rfl⟩
  | whDone e =>
    cases e <;>
      simp [CommitPc.instr, Instr.Copies, CommitPc.stored, CommitPc.moved, CommitPc.copied,
        CommitPc.phase]
  | clear => exact ⟨rfl, rfl, rfl, fun _ => rfl, .inl fun _ => rfl⟩
  | wlFrom t dst => exact ⟨rfl, rfl, fun i => ⟨rfl, rfl, rfl⟩⟩
  | whRead e => exact ⟨rfl, rfl, fun i => ⟨rfl, rfl, rfl⟩⟩
  | itDst t l => exact ⟨rfl, rfl, fun i => ⟨rfl, rfl, rfl⟩⟩
  | wlMove t dst src => exact ⟨rfl, rfl, rfl, t, rfl, rfl, .inl rfl⟩
  | itMove t l d => exact ⟨rfl, rfl, rfl, t, rfl, rfl, .inr ⟨rfl, rfl⟩⟩
  | whFill e i => exact ⟨rfl, rfl, rfl, rfl⟩
  | wlWrite t dst src => exact ⟨rfl, rfl, rfl⟩
  | whWrite e i => exact ⟨rfl, rfl, rfl⟩
  | itWrite t l d => exact ⟨rfl, rfl, rfl⟩
  | itUnpin t l d => exact ⟨rfl, rfl, rfl⟩
  | wlRelFrom t dst src => exact .inl ⟨⟨rfl, rfl, rfl⟩, _, _, _, rfl, .inl ⟨rfl, rfl⟩⟩
  | wlRelTo t dst => exact .inr ⟨rfl, rfl, rfl, .inl ⟨t, rfl, rfl, rfl, rfl, rfl⟩⟩
  | whRel e i =>
    refine .inr ⟨rfl, rfl, rfl, .inr (.inl ⟨rfl, rfl, rfl, ?_⟩)⟩
    cases e <;> simp [CommitPc.copied]
  | itRelLog t l d => exact .inl ⟨⟨rfl, rfl, rfl⟩, _, _, _, rfl, .inr ⟨rfl, rfl⟩⟩
  | itRelDst t d => exact .inr ⟨rfl, rfl, rfl, .inr (.inr ⟨_, rfl, rfl, rfl⟩)⟩

/-! ## The discipline of the file system -/

/-- No operation runs and nobody commits. -/
def BioSys.Quiescent (s : BioSys) : Prop :=
  s.ops.log.outstanding = 0 ∧ s.ops.log.committing = false

/-- A block is changed inside an operation and outside the log, or, as
recovery does, while there is no operation; an operation gives up what
it has changed before it ends, and begins when recovery has. -/
def BioAct.Disciplined (lg : LogArea) (s : BioSys) : BioAct → Prop
  | .modify p i _ => s.ops.pc p = .inOp ∧ ¬lg.Holds (s.cache.buf i).blockno ∨ s.Quiescent
  | .logWrite _ i => ¬lg.Holds (s.cache.buf i).blockno
  | .beginOp _ => s.Quiescent → ∀ i, s.hist.touched i = false
  | .endOp p => ∀ i, (s.cache.buf i).holder = some p → s.hist.touched i = false
  | _ => True

/-! ## The invariant -/

structure ArrayInv (lg : LogArea) (s : BioSys) : Prop where
  base : BioInv lg s
  size : s.ops.log.size = lg.size
  fits : s.ops.log.lh.length < lg.size
  homes : ∀ b ∈ s.ops.log.lh, ¬lg.Holds b
  /-- **The commit is invisible**: the last contents of a home block are
  the last a client left. -/
  last : ∀ {b}, ¬lg.Holds b → s.hist.last b = s.hist.client b
  touched : ∀ {i}, s.hist.touched i = true → s.Quiescent ∨ ∃ q, (s.cache.buf i).holder = some q
    ∧ (s.ops.pc q = .inOp ∨ (∃ ph, s.ops.pc q = .commit ph) ∧ s.pc.stored = some i)
  copied : ∀ {t}, t < s.pc.copied s.ops.log.lh →
    s.hist.last (lg.start + t + 1) = s.hist.last (s.ops.log.lh.getD t 0)
  moved : ∀ {i b}, s.pc.moved s.ops.log.lh = some (i, b) →
    s.hist.touched i = true ∧ (s.cache.buf i).data = s.hist.last b

theorem arrayInv_init (lg : LogArea) (d : Disk) : ArrayInv lg (BioSys.init lg d) where
  base := bioInv_init lg d
  size := rfl
  fits := lg.size_pos
  homes b hb := by cases hb
  last _ := rfl
  touched h := by cases h
  copied h := absurd h (Nat.not_lt_zero _)
  moved h := by cases h

variable {b : Nat} {d : Block} {ops : LogSys} {k : CommitPc}

section Steps

variable {lg : LogArea} {s s' : BioSys} {p : Nat} {ph : CommitPhase} {i : BufId}

/-- During a commit the only buffer stored into is the committer's. -/
theorem ArrayInv.touched_in_commit (inv : ArrayInv lg s) (hpc : s.ops.pc p = .commit ph)
    (ht : s.hist.touched i = true) :
    (s.cache.buf i).holder = some p ∧ s.pc.stored = some i := by
  have hc : s.ops.log.committing = true :=
    inv.base.group.committer.mpr ⟨p, by rw [hpc]; trivial⟩
  rcases inv.touched ht with hq | ⟨q, hh, hin | ⟨⟨ph', hcom⟩, hst⟩⟩
  · rw [hq.2] at hc
    cases hc
  · rw [(inv.base.group.of_inOp hin).2] at hc
    cases hc
  · obtain rfl := inv.base.group.unique q p (by rw [hcom]; trivial) (by rw [hpc]; trivial)
    exact ⟨hh, hst⟩

/-- Something is copied only during a commit. -/
theorem ArrayInv.committer (inv : ArrayInv lg s) (h : s.pc ≠ .test) :
    ∃ p ph, s.ops.pc p = .commit ph := by
  by_contra hno
  refine h (inv.base.rest fun p ph hpc => hno ⟨p, ph, hpc⟩)

/-- A stored-into buffer is locked. -/
theorem ArrayInv.touched_held (inv : ArrayInv lg s) (ht : s.hist.touched i = true) :
    (s.cache.buf i).holder ≠ none :=
  (inv.base.cache.refs i).touched ht

/-- A step that stores into no buffer and leaves the last contents as
they were. -/
theorem ArrayInv.of_cache (inv : ArrayInv lg s) (hbase : BioInv lg s') (hops : s'.ops = s.ops)
    (hpc : s.pc.SameCopy s.ops.log.lh s'.pc) (hlast : s'.hist.last = s.hist.last)
    (hclient : ∀ b, ¬lg.Holds b → s'.hist.client b = s.hist.client b)
    (htouched : s'.hist.touched = s.hist.touched)
    (hbuf : ∀ j, s.hist.touched j = true →
      (s'.cache.buf j).holder = (s.cache.buf j).holder
      ∧ (s'.cache.buf j).data = (s.cache.buf j).data) : ArrayInv lg s' := by
  refine ⟨hbase, by rw [hops]; exact inv.size, by rw [hops]; exact inv.fits,
    by rw [hops]; exact inv.homes, fun {b} hb => ?_, fun {j} ht => ?_, fun {t} ht => ?_,
    fun {j b} hm => ?_⟩
  · rw [hlast, hclient b hb]
    exact inv.last hb
  · rw [htouched] at ht
    rw [BioSys.Quiescent, hops, hpc.stored, (hbuf j ht).1]
    exact inv.touched ht
  · rw [hops, hpc.copied] at ht
    rw [hlast, hops]
    exact inv.copied ht
  · rw [hops, hpc.moved] at hm
    obtain ⟨ht, hd⟩ := inv.moved hm
    grind

theorem CommitPc.SameCopy.refl (lh : List Nat) (pc : CommitPc) : pc.SameCopy lh pc :=
  ⟨rfl, rfl, rfl⟩

/-- `bget` keeps a stored-into buffer: it is locked, so referenced. -/
theorem ArrayInv.bget_buf {c : Bcache} (inv : ArrayInv lg s)
    (hb : s.cache.bget ROOTDEV b = some (i, c)) (j : BufId) (ht : s.hist.touched j = true) :
    (c.buf j).holder = (s.cache.buf j).holder ∧ (c.buf j).data = (s.cache.buf j).data := by
  obtain ⟨q, hq⟩ := ne_none_iff_exists'.mp (inv.touched_held ht)
  have hu : Undisturbed q s.cache c := undisturbed_bget inv.base.cache hb
  exact ⟨((hu.holder j).mpr hq).trans hq.symm, (Buf.face_eq (hu.face j hq)).2.2.2⟩

/-- A store by `p` into the buffer `i` it holds. -/
theorem ArrayInv.touch_held {j : BufId} {q : Nat} (hij : j ≠ i)
    (hq : (s.cache.buf j).holder = some q) (d : Block) :
    ((s.cache.store i d).buf j).holder = some q
    ∧ ((s.cache.store i d).buf j).data = (s.cache.buf j).data := by
  rw [Bcache.store, s.cache.set_of_ne hij]
  exact ⟨hq, rfl⟩

theorem ArrayInv.modify (inv : ArrayInv lg s) (hp : s.Client p)
    (hh : (s.cache.buf i).holder = some p)
    (hd : s.ops.pc p = .inOp ∧ ¬lg.Holds (s.cache.buf i).blockno ∨ s.Quiescent) :
    ArrayInv lg (s.store i d s.pc) := by
  -- nobody commits
  have hpc : s.pc = .test := by
    by_contra hne
    obtain ⟨q, ph, hq⟩ := inv.committer hne
    have hc : s.ops.log.committing = true :=
      inv.base.group.committer.mpr ⟨q, by rw [hq]; trivial⟩
    rcases hd with ⟨hin, -⟩ | hqu
    · rw [(inv.base.group.of_inOp hin).2] at hc
      cases hc
    · rw [hqu.2] at hc
      cases hc
  refine ⟨inv.base.modify hp hh, inv.size, inv.fits, inv.homes, inv.last, fun {j} ht => ?_,
    inv.copied, fun {j b} hm => ?_⟩
  · by_cases hj : j = i
    · subst hj
      refine hd.symm.imp id fun hin => ⟨p, ?_, .inl hin.1⟩
      show ((s.cache.store j d).buf j).holder = some p
      rw [Bcache.store, s.cache.set_self]
      exact hh
    · have ht' := (s.hist.touch_touched_of_ne hj).symm.trans ht
      rcases inv.touched ht' with hq | ⟨q, hq, hor⟩
      · exact .inl hq
      · exact .inr ⟨q, (ArrayInv.touch_held hj hq d).1, hor⟩
  · have hm' : s.pc.moved s.ops.log.lh = some (j, b) := hm
    rw [hpc] at hm'
    cases hm'

theorem ArrayInv.logged (inv : ArrayInv lg s)
    (hbase : BioInv lg
      { s with
        ops := { s.ops with log := { s.ops.log with
          lh := s.ops.log.lh ++ [(s.cache.buf i).blockno] } }
        cache := s.cache.bpin i
        hist := { s.hist.save i with
          taken := update s.hist.taken (s.cache.buf i).blockno
            (s.hist.taken (s.cache.buf i).blockno + 1) } })
    (hout : 1 ≤ s.ops.log.outstanding)
    (hroom : (s.ops.log.lh.length : Int) < (s.ops.log.size : Int) - 1)
    (hd : ¬lg.Holds (s.cache.buf i).blockno) :
    ArrayInv lg
      { s with
        ops := { s.ops with log := { s.ops.log with
          lh := s.ops.log.lh ++ [(s.cache.buf i).blockno] } }
        cache := s.cache.bpin i
        hist := { s.hist.save i with
          taken := update s.hist.taken (s.cache.buf i).blockno
            (s.hist.taken (s.cache.buf i).blockno + 1) } } := by
  have hpc := inv.base.rest (inv.base.not_committing hout)
  have hsize := inv.size
  refine ⟨hbase, inv.size, ?_, fun b hb => ?_, inv.last, fun {j} ht => ?_, fun {t} ht => ?_,
    fun {j b} hm => ?_⟩
  · grind
  · rcases mem_append.mp hb with hb | hb
    · exact inv.homes b hb
    · grind
  · have hholder : ((s.cache.bpin i).buf j).holder = (s.cache.buf j).holder :=
      s.cache.set_field (i := i)
        (x := { s.cache.buf i with refcnt := (s.cache.buf i).refcnt + 1 }) Buf.holder rfl j
    rcases inv.touched ht with hq | ⟨q, hq, hor⟩
    · exact .inl hq
    · exact .inr ⟨q, hholder.trans hq, hor⟩
  · simp_all [hpc, CommitPc.copied]
  · simp only [hpc, CommitPc.moved] at hm
    cases hm

/-- Giving up a buffer one has not stored into changes nothing. -/
theorem ArrayInv.settle_untouched {m : Bool} (inv : ArrayInv lg s) (hp : s.call p = .idle)
    (hh : (s.cache.buf i).holder = some p) (ht : s.hist.touched i = false) :
    (s.hist.settle i (s.cache.buf i) m).last = s.hist.last
    ∧ (s.hist.settle i (s.cache.buf i) m).touched = s.hist.touched := by
  obtain ⟨hdev, hv⟩ := (inv.base.cache.refs i).valid_of_holder hh hp
  constructor
  · show update s.hist.last _ _ = _
    simp [(inv.base.cache.data i).view hdev hv ht]
  · show update s.hist.touched _ _ = _
    grind

theorem ArrayInv.release_buf {j : BufId} (hj : j ≠ i) :
    ((s.cache.releasesleep i).buf j).holder = (s.cache.buf j).holder
    ∧ ((s.cache.releasesleep i).buf j).data = (s.cache.buf j).data := by
  rw [Bcache.releasesleep, s.cache.set_of_ne hj]
  exact ⟨rfl, rfl⟩

theorem ArrayInv.brelse (inv : ArrayInv lg s) (hp : s.Client p)
    (hu : s.hist.unsaved i = false) (hh : (s.cache.buf i).holder = some p) :
    ArrayInv lg
      { s with
        cache := s.cache.releasesleep i
        call := update s.call p (.dropping i)
        hist := s.hist.settle i (s.cache.buf i) false } := by
  have hbase := inv.base.brelse hp hu hh
  have hne : ∀ {j}, s.hist.touched i = false → s.hist.touched j = true → j ≠ i := by grind
  cases ht : s.hist.touched i with
  | false =>
    obtain ⟨hl, htt⟩ := inv.settle_untouched (m := false) hp.1 hh ht
    refine inv.of_cache hbase rfl (.refl ..) hl (fun b hb => ?_) htt
      fun j hj => ArrayInv.release_buf (hne ht hj)
    show update s.hist.client _ _ b = _
    by_cases hbi : b = (s.cache.buf i).blockno
    · -- the contents were the client's own already
      have hval : update s.hist.last (s.cache.buf i).blockno (s.cache.buf i).data b =
          s.hist.last b := congrFun hl b
      rw [hbi, update_self] at hval
      rw [hbi] at hb
      rw [hbi, update_self, hval]
      exact inv.last hb
    · exact update_of_ne hbi ..
  | true =>
    have hpc : s.pc = .test := by
      by_contra hn
      obtain ⟨q, ph, hq⟩ := inv.committer hn
      have := (inv.touched_in_commit hq ht).1
      rw [hh] at this
      cases this
      exact hp.not_committing hq
    refine ⟨hbase, inv.size, inv.fits, inv.homes, fun {b} hb => ?_, fun {j} hj => ?_,
      fun {t} h => ?_, fun {j b} hm => ?_⟩
    · show update s.hist.last _ _ b = update s.hist.client _ _ b
      by_cases hbi : b = (s.cache.buf i).blockno
      · grind
      · rw [update_of_ne hbi, update_of_ne hbi]
        exact inv.last hb
    · obtain ⟨hji, hj'⟩ := s.hist.settle_touched hj
      refine (inv.touched hj').imp id fun ⟨q, hq, hor⟩ => ⟨q, ?_, hor⟩
      exact (ArrayInv.release_buf hji).1.trans hq
    · simp_all [hpc, CommitPc.copied]
    · simp only [hpc, CommitPc.moved] at hm
      cases hm

/-! ### Sections of the log -/

theorem ArrayInv.of_ops {ops : LogSys} (inv : ArrayInv lg s)
    (hbase : BioInv lg { s with ops := ops }) (hsize : ops.log.size = s.ops.log.size)
    (hlh : ops.log.lh = s.ops.log.lh)
    (ht : ∀ {j}, s.hist.touched j = true → BioSys.Quiescent { s with ops := ops }
      ∨ ∃ q, (s.cache.buf j).holder = some q
        ∧ (ops.pc q = .inOp ∨ (∃ ph, ops.pc q = .commit ph) ∧ s.pc.stored = some j)) :
    ArrayInv lg { s with ops := ops } := by
  refine ⟨hbase, hsize.trans inv.size, ?_, ?_, inv.last, ht, fun {t} h => ?_, fun {j b} h => ?_⟩
  · rw [hlh]
    exact inv.fits
  · rw [hlh]
    exact inv.homes
  · rw [hlh] at h ⊢
    exact inv.copied h
  · rw [hlh] at h
    exact inv.moved h

/-- A section that leaves alone the processes inside operations and the
committer, and does not start the first operation. -/
theorem ArrayInv.of_setPc (inv : ArrayInv lg s) (hbase : BioInv lg { s with ops := ops })
    (hsize : ops.log.size = s.ops.log.size) (hlh : ops.log.lh = s.ops.log.lh)
    (hq : s.Quiescent → BioSys.Quiescent { s with ops := ops } ∨ ∀ j, s.hist.touched j = false)
    (hin : ∀ q j, s.hist.touched j = true → (s.cache.buf j).holder = some q → s.ops.pc q = .inOp → ops.pc q = .inOp)
    (hcom : ∀ q ph, s.ops.pc q = .commit ph → ops.pc q = .commit ph) :
    ArrayInv lg { s with ops := ops } := by
  refine inv.of_ops hbase hsize hlh fun {j} ht => ?_
  rcases inv.touched ht with hqu | ⟨q, hh, hor⟩
  · grind
  · grind

theorem LogSys.setPc_keeps {c x : OpPc} (h : ops.pc p ≠ x) (q : Nat) (hq : ops.pc q = x) :
    (ops.setPc p c).pc q = x := by
  rw [ops.setPc_pc_of_ne, hq]
  rintro rfl
  exact h hq

theorem ArrayInv.beginOp (inv : ArrayInv lg s) (hm : LogMove s.ops (.beginOp p) ops)
    (hd : s.Quiescent → ∀ i, s.hist.touched i = false) : ArrayInv lg { s with ops := ops } := by
  have hbase := inv.base.beginOp hm
  cases hm with
  | admitted hpc h =>
    refine inv.of_setPc hbase rfl rfl (fun hq => .inr (hd hq)) (fun q _ _ _ hq => ?_)
      fun q ph hq => ?_
    · exact LogSys.setPc_keeps (by rcases hpc with hpc | hpc <;> simp [hpc]) q hq
    · exact LogSys.setPc_keeps (by rcases hpc with hpc | hpc <;> simp [hpc]) q hq
  | sleeps hpc h =>
    refine inv.of_setPc hbase rfl rfl (fun hq => .inl hq) (fun q _ _ _ hq => ?_)
      fun q ph hq => ?_
    · exact LogSys.setPc_keeps (by rcases hpc with hpc | hpc <;> simp [hpc]) q hq
    · exact LogSys.setPc_keeps (by rcases hpc with hpc | hpc <;> simp [hpc]) q hq

theorem ArrayInv.kill (inv : ArrayInv lg s) (hm : LogMove s.ops (.kill p) ops) :
    ArrayInv lg { s with ops := ops } := by
  have hbase := inv.base.kill hm
  cases hm with
  | kill hpc =>
    exact inv.of_setPc hbase rfl rfl (fun hq => .inl hq)
      (fun q _ _ _ hq => LogSys.setPc_keeps (by simp [hpc]) q hq)
      fun q ph hq => LogSys.setPc_keeps (by simp [hpc]) q hq

theorem ArrayInv.endOp (inv : ArrayInv lg s) (hp : s.call p = .idle)
    (hm : LogMove s.ops (.endOp p) ops)
    (hd : ∀ i, (s.cache.buf i).holder = some p → s.hist.touched i = false) :
    ArrayInv lg { s with ops := ops } := by
  have hbase := inv.base.endOp hp hm
  have hgroup := inv.base.group
  -- what is stored into is held by others, inside their operations
  have hother : ∀ {q j}, s.hist.touched j = true → (s.cache.buf j).holder = some q → q ≠ p := by
    grind
  cases hm with
  | logCommitting hpc h =>
    rw [(hgroup.of_inOp hpc).2] at h
    cases h
  | lastOp hpc hc h =>
    refine inv.of_setPc hbase rfl rfl (fun hq => ?_) (fun q j ht hh hq => ?_) fun q ph hq => ?_
    · have := hq.1
      omega
    · exact (LogSys.setPc_pc_of_ne _ (hother ht hh) _).trans hq
    · exact absurd hq (inv.base.not_committing (by omega) q ph)
  | leaves hpc hc h =>
    refine inv.of_setPc hbase rfl rfl (fun hq => ?_) (fun q j ht hh hq => ?_) fun q ph hq => ?_
    · have := (hgroup.of_inOp hpc).1
      have := hq.1
      omega
    · rw [LogSys.setPc_pc_of_ne _ (hother ht hh), LogSys.wakeup_pc (by simp) (by simp)]
      exact hq
    · exact absurd hq (inv.base.not_committing (hgroup.of_inOp hpc).1 q ph)

theorem ArrayInv.endCommit (inv : ArrayInv lg s) (hm : LogMove s.ops (.endCommit p) ops) :
    ArrayInv lg { s with ops := ops } := by
  have hbase := inv.base.endCommit hm
  cases hm with
  | endCommit hpc =>
    refine inv.of_ops hbase rfl rfl fun {j} _ => .inl ⟨?_, rfl⟩
    exact inv.base.group.quiet (inv.base.group.committer.mpr ⟨p, by rw [hpc]; trivial⟩)

/-! ### The calls of `commit()` -/

/-- Copying into a buffer of the committer. `hmv` is what the copy is
of. -/
theorem ArrayInv.commitStore (inv : ArrayInv lg s) (hbase : BioInv lg (s.store i d k))
    (hpc : s.ops.pc p = .commit ph) (hh : (s.cache.buf i).holder = some p)
    (hst : s.pc.stored = none) (hkst : k.stored = some i)
    (hcp : k.copied s.ops.log.lh = s.pc.copied s.ops.log.lh)
    (hmv : ∀ {j b}, k.moved s.ops.log.lh = some (j, b) → j = i ∧ d = s.hist.last b) :
    ArrayInv lg (s.store i d k) := by
  refine ⟨hbase, inv.size, inv.fits, inv.homes, inv.last, fun {j} ht => ?_, fun {t} ht => ?_,
    fun {j b} hm => ?_⟩
  · have hji : j = i := by
      by_contra hj
      have ht' := (s.hist.touch_touched_of_ne hj).symm.trans ht
      cases hst.symm.trans (inv.touched_in_commit hpc ht').2
    subst hji
    refine .inr ⟨p, ?_, .inr ⟨⟨ph, hpc⟩, hkst⟩⟩
    show ((s.cache.store j d).buf j).holder = some p
    rw [Bcache.store, s.cache.set_self]
    exact hh
  · exact inv.copied (hcp ▸ ht)
  · obtain ⟨rfl, hd⟩ := hmv hm
    refine ⟨update_self .., ?_⟩
    show ((s.cache.store j d).buf j).data = s.hist.last b
    rw [Bcache.store, s.cache.set_self]
    exact hd

theorem ArrayInv.commitMove {dst src : BufId} (inv : ArrayInv lg s)
    (hbase : BioInv lg (s.store dst (s.cache.buf src).data k)) (hp : s.call p = .idle)
    (hpc : s.ops.pc p = .commit ph) (hin : s.pc.instr lg s.ops.log.lh = .move dst src k) :
    ArrayInv lg (s.store dst (s.cache.buf src).data k) := by
  have ci := (inv.base.commit hpc).2
  have hflow := s.pc.flow lg s.ops.log.lh
  have hcopy := s.pc.copies lg s.ops.log.lh
  rw [hin] at hflow hcopy
  obtain ⟨-, -, -, -, -, a, ha⟩ := hflow
  obtain ⟨hst, hkst, hcp, t, ht, hmv, hsrc⟩ := hcopy
  have hh : (s.cache.buf dst).holder = some p := by
    rcases ha with ho | hi
    · exact (ci.outer ho).2
    · exact (ci.inner_held hp hi).2
  -- the source has not been stored into
  have huntouched : s.hist.touched src = false := by
    cases h : s.hist.touched src with
    | false => rfl
    | true => cases hst.symm.trans (inv.touched_in_commit hpc h).2
  have hview : ∀ {c}, s.cache.Assigned src c → (s.cache.buf src).holder = some p →
      (s.cache.buf src).data = s.hist.last c := by
    intro c hc hsh
    have hv := ((inv.base.cache.refs src).valid_of_holder hsh hp).2
    rw [(inv.base.cache.data src).view hc.1 hv huntouched, hc.2]
  refine inv.commitStore hbase hpc hh hst hkst hcp fun {j b} hm => ?_
  obtain ⟨rfl, rfl⟩ := Prod.mk.inj (some.inj (hmv.symm.trans hm))
  refine ⟨rfl, ?_⟩
  rcases hsrc with hi | ⟨ho, hall⟩
  · obtain ⟨hasg, hsh⟩ := ci.inner_held hp hi
    exact hview hasg hsh
  · -- the log block is a copy of the home block
    obtain ⟨hasg, hsh⟩ := ci.outer ho
    rw [hview hasg hsh]
    exact inv.copied (hall ▸ ci.index ht)

theorem ArrayInv.commitHead (inv : ArrayInv lg s) (hbase : BioInv lg (s.store i d k))
    (hp : s.call p = .idle) (hpc : s.ops.pc p = .commit ph)
    (hin : s.pc.instr lg s.ops.log.lh = .setHead i k) : ArrayInv lg (s.store i d k) := by
  have ci := (inv.base.commit hpc).2
  have hflow := s.pc.flow lg s.ops.log.lh
  have hcopy := s.pc.copies lg s.ops.log.lh
  rw [hin] at hflow hcopy
  obtain ⟨-, -, -, -, -, a, ha⟩ := hflow
  obtain ⟨hst, hkst, hcp, hmv⟩ := hcopy
  refine inv.commitStore hbase hpc ?_ hst hkst hcp fun hm => by cases hmv.symm.trans hm
  rcases ha with ho | hi
  · exact (ci.outer ho).2
  · exact (ci.inner_held hp hi).2

theorem LogArea.home_ne {c : Nat} (hb : ¬lg.Holds b) (hc : lg.Holds c) : b ≠ c := by
  rintro rfl
  exact hb hc

theorem getD_mem {l : List Nat} {t : Nat} (ht : t < l.length) : l.getD t 0 ∈ l := by grind

/-- The committer gives up the buffer it has copied into, of block `b`:
afterwards nobody has stored into anything, and it is left to say what
is copied now. -/
theorem ArrayInv.commitSettle {k : CommitPc} {b : Nat} (inv : ArrayInv lg s)
    (hbase : BioInv lg
      { s with
        cache := s.cache.releasesleep i
        call := update s.call p (.dropping i)
        hist := s.hist.settle i (s.cache.buf i) true
        pc := k })
    (hpc : s.ops.pc p = .commit ph) (hst : s.pc.stored = some i) (hkmv : k.moved s.ops.log.lh = none)
    (hb : (s.cache.buf i).blockno = b)
    (hlast : ¬lg.Holds b → (s.cache.buf i).data = s.hist.last b)
    (hcp : ∀ {t}, t < k.copied s.ops.log.lh →
      update s.hist.last b (s.cache.buf i).data (lg.start + t + 1)
        = update s.hist.last b (s.cache.buf i).data (s.ops.log.lh.getD t 0)) :
    ArrayInv lg
      { s with
        cache := s.cache.releasesleep i
        call := update s.call p (.dropping i)
        hist := s.hist.settle i (s.cache.buf i) true
        pc := k } := by
  subst hb
  refine ⟨hbase, inv.size, inv.fits, inv.homes, fun {c} hc => ?_, fun {j} hj => ?_, hcp,
    fun {j c} hm => by cases hkmv.symm.trans hm⟩
  · show update s.hist.last _ _ c = s.hist.client c
    by_cases hcb : c = (s.cache.buf i).blockno
    · rw [hcb, update_self]
      rw [hcb] at hc
      rw [hlast hc]
      exact inv.last hc
    · rw [update_of_ne hcb]
      exact inv.last hc
  · obtain ⟨hji, hj'⟩ := s.hist.settle_touched hj
    have := (inv.touched_in_commit hpc hj').2
    grind

theorem ArrayInv.commitBrelse {k : CommitPc} (inv : ArrayInv lg s)
    (hbase : BioInv lg
      { s with
        cache := s.cache.releasesleep i
        call := update s.call p (.dropping i)
        hist := s.hist.settle i (s.cache.buf i) true
        pc := k })
    (hp : s.call p = .idle) (hpc : s.ops.pc p = .commit ph)
    (hin : s.pc.instr lg s.ops.log.lh = .brelse i k) (hh : (s.cache.buf i).holder = some p) :
    ArrayInv lg
      { s with
        cache := s.cache.releasesleep i
        call := update s.call p (.dropping i)
        hist := s.hist.settle i (s.cache.buf i) true
        pc := k } := by
  have ci := (inv.base.commit hpc).2
  have hfits := inv.fits
  have hcopy := s.pc.copies lg s.ops.log.lh
  rw [hin] at hcopy
  rcases hcopy with ⟨hsame, a, b, j, hst, hij⟩ | ⟨hst, hkst, hkmv, hcase⟩
  · -- the other buffer, which has not been stored into
    have hji : j ≠ i := by
      rintro rfl
      rcases hij with ⟨hi, ho⟩ | ⟨ho, hi⟩ <;> cases hp.symm.trans (ci.apart ho hi)
    have hut : s.hist.touched i = false := by
      cases h : s.hist.touched i with
      | false => rfl
      | true =>
        have := (inv.touched_in_commit hpc h).2
        exact absurd (some.inj (hst.symm.trans this)) hji
    obtain ⟨hl, htt⟩ := inv.settle_untouched (m := true) hp hh hut
    refine inv.of_cache hbase rfl hsame hl (fun _ _ => rfl) htt fun l ht => ?_
    refine ArrayInv.release_buf ?_
    rintro rfl
    rw [hut] at ht
    cases ht
  · rcases hcase with ⟨t, ht, hinn, hmv, hcp, hkcp⟩ | ⟨hinn, hmv, hkcp, hle⟩ | ⟨b, hinn, hmv, hkcp⟩
    · -- `write_log` gives up log block `t`, a copy of home block `lh[t]`
      have hlt := ci.index ht
      have hdata := (inv.moved hmv).2
      have hblk := (ci.inner_held hp hinn).1.2
      refine inv.commitSettle hbase hpc hst hkmv hblk (fun hno => ?_) fun {u} hu => ?_
      · exact absurd ⟨by omega, by omega⟩ hno
      · have hhome := inv.homes _ (getD_mem (show u < s.ops.log.lh.length by omega))
        rw [update_of_ne (LogArea.home_ne hhome ⟨by omega, by omega⟩)]
        by_cases hut : u = t
        · grind
        · rw [update_of_ne (by omega)]
          exact inv.copied (by omega)
    · -- the header block
      have hblk := (ci.inner_held hp hinn).1.2
      refine inv.commitSettle hbase hpc hst hkmv hblk (fun hno => ?_) fun {u} hu => ?_
      · exact absurd ⟨by omega, by omega⟩ hno
      · have hu' : u < s.pc.copied s.ops.log.lh := hkcp ▸ hu
        rw [update_of_ne (by omega)]
        have hhome := inv.homes _ (getD_mem (show u < s.ops.log.lh.length by omega))
        rw [update_of_ne (LogArea.home_ne hhome ⟨by omega, by omega⟩)]
        exact inv.copied hu'
    · -- `install_trans` gives up home block `b`, unchanged
      have hdata := (inv.moved hmv).2
      have hblk := (ci.inner_held hp hinn).1.2
      refine inv.commitSettle hbase hpc hst hkmv hblk (fun _ => hdata) fun {u} hu => ?_
      rw [hdata, update_eq_self]
      exact inv.copied (hkcp ▸ hu)

/-- Sections of `commit()` shorten the header or keep it. -/
theorem commitStep_log (ops : LogSys) (ph : CommitPhase) :
    (commitStep ops p ph).log.size = ops.log.size
    ∧ ((commitStep ops p ph).log.lh = ops.log.lh
      ∨ ph = .clear ∧ (commitStep ops p ph).log.lh = []) := by
  cases ph with
  | test =>
    rw [commitStep]
    split <;> exact ⟨rfl, .inl rfl⟩
  | clear => exact ⟨rfl, .inr ⟨rfl, rfl⟩⟩
  | _ => exact ⟨rfl, .inl rfl⟩

theorem ArrayInv.commitPhase (inv : ArrayInv lg s)
    (hbase : BioInv lg { s with ops := commitStep s.ops p ph, pc := k })
    (hpc : s.ops.pc p = .commit ph) (hin : s.pc.instr lg s.ops.log.lh = .phase k) :
    ArrayInv lg { s with ops := commitStep s.ops p ph, pc := k } := by
  have hcopy := s.pc.copies lg s.ops.log.lh
  rw [hin] at hcopy
  obtain ⟨hst, -, -, hkmv, hcp⟩ := hcopy
  obtain ⟨rfl, -⟩ := inv.base.commit hpc
  obtain ⟨hsize, hlh⟩ := commitStep_log (p := p) s.ops s.pc.phase
  refine ⟨hbase, hsize.trans inv.size, ?_, ?_, inv.last, fun {j} hj => ?_, fun {t} ht => ?_,
    fun {j c} hm => by cases (hkmv _).symm.trans hm⟩
  · rcases hlh with h | ⟨-, h⟩ <;> rw [h]
    · exact inv.fits
    · exact lg.size_pos
  · rcases hlh with h | ⟨-, h⟩ <;> rw [h]
    · exact inv.homes
    · exact fun b hb => by cases hb
  · cases hst.symm.trans (inv.touched_in_commit hpc hj).2
  · rcases hcp with h0 | ⟨hle, hne⟩
    · grind
    · rcases hlh with h | ⟨h, -⟩
      · rw [h] at ht ⊢
        exact inv.copied (lt_of_lt_of_le ht hle)
      · exact absurd h hne

/-! ## The invariant over a step and over a run -/

theorem arrayInv_step {a : BioAct} (inv : ArrayInv lg s) (hd : a.Disciplined lg s)
    (h : bioStep lg s a = some s') : ArrayInv lg s' := by
  have hbase := bioInv_step inv.base h
  have hm := (bioStep_move h).2.2
  cases hm with
  | panic x => exact inv.of_cache hbase rfl (.refl ..) rfl (fun _ _ => rfl) rfl fun _ _ => ⟨rfl, rfl⟩
  | logPanic hx => exact inv.of_ops hbase rfl rfl fun ht => inv.touched ht
  | bget hp hb =>
    exact inv.of_cache hbase rfl (.refl ..) rfl (fun _ _ => rfl) rfl (inv.bget_buf hb)
  | @acquire p b i hp hh =>
    refine inv.of_cache hbase rfl (.refl ..) rfl (fun _ _ => rfl) rfl fun j ht => ?_
    have hji : j ≠ i := by
      rintro rfl
      exact inv.touched_held ht hh
    simp [Bcache.acquiresleep, s.cache.set_of_ne hji]
  | @fill p b i hp =>
    refine inv.of_cache hbase rfl (.refl ..) rfl (fun _ _ => rfl) rfl fun j ht => ?_
    have hji : j ≠ i := by
      rintro rfl
      cases ((inv.base.cache.refs j).filling hp).2.2.symm.trans ht
    simp [Bcache.fill_of_ne hji]
  | modify hp hh => exact inv.modify hp hh hd
  | bwrite hp hh =>
    exact inv.of_cache hbase rfl (.refl ..) rfl (fun _ _ => rfl) rfl fun _ _ => ⟨rfl, rfl⟩
  | absorbed hp hh hout hb =>
    exact inv.of_cache hbase rfl (.refl ..) rfl (fun _ _ => rfl) rfl fun _ _ => ⟨rfl, rfl⟩
  | logged hp hh hout hroom hb => exact inv.logged hbase hout hroom hd
  | brelse hp hu hh => exact inv.brelse hp hu hh
  | drop hp =>
    exact inv.of_cache hbase rfl (.refl ..) rfl (fun _ _ => rfl) rfl fun j _ =>
      ⟨s.cache.drop_field Buf.holder (fun _ _ => rfl) j,
        s.cache.drop_field Buf.data (fun _ _ => rfl) j⟩
  | beginOp hp hm => exact inv.beginOp hm hd
  | endOp hp hm => exact inv.endOp hp hm hd
  | kill hm => exact inv.kill hm
  | endCommit hp hm => exact inv.endCommit hm
  | commitBget hp hpc hin hb =>
    have hcopy := s.pc.copies lg s.ops.log.lh
    rw [hin] at hcopy
    exact inv.of_cache hbase rfl (hcopy.2.2 _) rfl (fun _ _ => rfl) rfl (inv.bget_buf hb)
  | commitMove hp hpc hin => exact inv.commitMove hbase hp hpc hin
  | commitHead hp hpc hin => exact inv.commitHead hbase hp hpc hin
  | commitBwrite hp hpc hin hh =>
    have hcopy := s.pc.copies lg s.ops.log.lh
    rw [hin] at hcopy
    exact inv.of_cache hbase rfl hcopy rfl (fun _ _ => rfl) rfl fun _ _ => ⟨rfl, rfl⟩
  | @commitBunpin p ph i k hp hpc hin =>
    have hcopy := s.pc.copies lg s.ops.log.lh
    rw [hin] at hcopy
    have hfield : ∀ {α : Type} (f : Buf → α), (∀ x r, f { x with refcnt := r } = f x) → ∀ j,
        f ((s.cache.bunpin i).buf j) = f (s.cache.buf j) := fun f hf j =>
      s.cache.set_field (i := i)
        (x := { s.cache.buf i with refcnt := (s.cache.buf i).refcnt - 1 }) f (hf ..) j
    exact inv.of_cache hbase rfl hcopy rfl (fun _ _ => rfl) rfl fun j _ =>
      ⟨hfield Buf.holder (fun _ _ => rfl) j, hfield Buf.data (fun _ _ => rfl) j⟩
  | commitBrelse hp hpc hin hh => exact inv.commitBrelse hbase hp hpc hin hh
  | commitPhase hp hpc hin => exact inv.commitPhase hbase hpc hin

theorem arrayInv_run {d : Disk} {as : List BioAct}
    (hd : Along (bioStep lg) (fun s a => a.Disciplined lg s) (BioSys.init lg d) as)
    (h : bioRun lg (BioSys.init lg d) as = some s) : ArrayInv lg s :=
  run_invariant_along arrayInv_step (arrayInv_init lg d) hd h

end Steps

/-! ## The theorem -/

/-- The pending blocks are the header up to where `install_trans` has
come. -/
theorem BioInv.pend_suffix {lg : LogArea} {s : BioSys} (inv : BioInv lg s) :
    ∃ k, s.pend = s.ops.log.lh.drop k
      ∧ (0 < k → ∃ p, s.ops.pc p = .commit .installTrans ∨ s.ops.pc p = .commit .clear) := by
  by_cases hno : ∀ p ph, s.ops.pc p ≠ .commit ph
  · simp_all [BioSys.pend, inv.rest hno, CommitPc.pend, drop_zero]
  · push Not at hno
    obtain ⟨p, ph, hpc⟩ := hno
    have hph := (inv.commit hpc).1
    unfold BioSys.pend
    cases hs : s.pc with
    | itLog t | itDst t l | itMove t l d | itWrite t l d | itUnpin t l d =>
      rw [hs] at hph
      subst hph
      exact ⟨t, rfl, fun _ => ⟨p, .inl hpc⟩⟩
    | itRelLog t l d | itRelDst t d =>
      rw [hs] at hph
      subst hph
      exact ⟨t + 1, rfl, fun _ => ⟨p, .inl hpc⟩⟩
    | clear =>
      rw [hs] at hph
      subst hph
      exact ⟨_, drop_length.symm, fun _ => ⟨p, .inr hpc⟩⟩
    | _ => exact ⟨0, rfl, fun h => absurd h (by omega)⟩

/-- **The buffer cache and the log are an array of blocks.** In every
state `s` of every run:
- `bread` hands a process, locked, the contents the last holder of the
  block left, or those of the disk at boot when there was none;
- for home blocks, along disciplined runs, that is what the last client
  left, however many commits came between;
- a buffer's references are the processes waiting for it or dropping it,
  its holder, and one pin exactly when its block is pending, that is in
  the header and not yet unpinned by `install_trans`;
- no step takes the buffer of a pending block away, nor the block off
  the pending list before the buffer is on the disk;
- every pin taken has been dropped exactly once when the header is
  empty, and at no time are two pins of a block outstanding. -/
theorem cached_blocks_are_array (lg : LogArea) (d : Disk) (as : List BioAct) (s : BioSys)
    (h : bioRun lg (BioSys.init lg d) as = some s) :
    (∀ p i b s', s.call p = .filling i b → bioStep lg s (.fill p) = some s' →
      s'.cache.Assigned i b ∧ (s'.cache.buf i).holder = some p
      ∧ (s'.cache.buf i).data = s.hist.last b)
    ∧ (Along (bioStep lg) (fun s a => a.Disciplined lg s) (BioSys.init lg d) as →
      ∀ b, ¬lg.Holds b → s.hist.last b = s.hist.client b)
    ∧ (∀ i, ∃ W : Finset Nat, (∀ p, p ∈ W ↔ (s.call p).Uses i)
      ∧ (s.cache.buf i).refcnt = W.card + (s.cache.buf i).held + (s.cache.buf i).pin s.pend)
    ∧ (∀ b ∈ s.pend, ∃ i, s.cache.Assigned i b ∧ (s.cache.buf i).pin s.pend = 1
      ∧ ∀ j, s.cache.Assigned j b → j = i)
    ∧ (∃ k, s.pend = s.ops.log.lh.drop k
      ∧ (0 < k → ∃ p, s.ops.pc p = .commit .installTrans ∨ s.ops.pc p = .commit .clear))
    ∧ (∀ a s' i b, bioStep lg s a = some s' → b ∈ s.pend → s.cache.Assigned i b →
      s'.cache.Assigned i b ∧ (b ∈ s'.pend ∨ s'.cache.disk b = (s'.cache.buf i).data))
    ∧ (∀ b, s.hist.taken b = s.hist.dropped b + if b ∈ s.pend then 1 else 0)
    ∧ (s.ops.log.lh = [] → ∀ b, s.hist.taken b = s.hist.dropped b) := by
  have inv := bioInv_run h
  obtain ⟨k, hk, hphase⟩ := inv.pend_suffix
  refine ⟨fun p i b s' hp hs' => ?_, fun hd b hb => (arrayInv_run hd h).last hb,
    fun i => (inv.cache.refs i).refs, fun b hb => ?_, ⟨k, hk, hphase⟩,
    fun a s' i b ha hb hi => inv.pinned_step (bioStep_move ha).2.2 hb hi, inv.pins,
    fun hnil b => ?_⟩
  · have hh := ((inv.cache.refs i).filling hp).2.1
    obtain ⟨-, hasg, hdata⟩ := inv.cache.fill hp
    simp only [bioStep, hp, ite_none_left_eq_some, some.injEq] at hs'
    obtain ⟨-, rfl⟩ := hs'
    exact ⟨hasg, (s.cache.fill_field Buf.holder (fun _ _ _ => rfl) i).trans hh, hdata⟩
  · obtain ⟨i, hi, -⟩ := inv.cache.pinned hb
    refine ⟨i, hi, if_pos ⟨hi.1, by rw [hi.2]; exact hb⟩, fun j hj => inv.cache.unique hj hi⟩
  · have := inv.pins b
    grind

/-- One process logs block 40, gives it up and commits. -/
def oneBlockOp : List BioAct :=
  let bread : List BioAct := [.commit 1, .acquire 1, .fill 1]
  let brelse : List BioAct := [.commit 1, .drop 1]
  let writeHead : List BioAct := bread ++ [.commit 1, .commit 1] ++ brelse ++ [.commit 1]
  [.beginOp 1, .bread 1 40, .acquire 1, .fill 1, .modify 1 0 (ByteVec.fill BSIZE 7),
    .logWrite 1 0, .brelse 1 0, .drop 1, .endOp 1, .commit 1]
  ++ bread ++ bread ++ [.commit 1, .commit 1] ++ brelse ++ brelse ++ [.commit 1]
  ++ writeHead
  ++ bread ++ bread ++ [.commit 1, .commit 1, .commit 1] ++ brelse ++ brelse ++ [.commit 1]
  ++ [.commit 1] ++ writeHead ++ [.endCommit 1]

/-- One pin was taken and one dropped. -/
theorem cached_blocks_are_array_one_block :
    ∃ s, bioRun ⟨2, 30, by decide⟩ (BioSys.init ⟨2, 30, by decide⟩ fun _ => ByteVec.fill BSIZE 0)
        oneBlockOp = some s
      ∧ s.hist.taken 40 = 1 ∧ s.hist.dropped 40 = 1 := by
  have hrun : (bioRun ⟨2, 30, by decide⟩
      (BioSys.init ⟨2, 30, by decide⟩ fun _ => ByteVec.fill BSIZE 0) oneBlockOp).map
      (fun s => (s.ops.log.lh, s.hist.taken 40)) = some ([], 1) := by
    decide +kernel
  obtain ⟨s, hs, heq⟩ := map_eq_some_iff.mp hrun
  obtain ⟨hlh, htaken⟩ := Prod.mk.inj heq
  refine ⟨s, hs, htaken, ?_⟩
  rw [← (cached_blocks_are_array _ _ _ s hs).2.2.2.2.2.2.2 hlh 40]
  exact htaken

end Xv6
