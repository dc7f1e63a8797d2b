import Xv6.Itable
import Xv6.Tally

/-!
# One entry of the inode table

The invariant of one entry speaks of what concerns it: the entry, the
on-disk inode under its key, the references to it and the processes
working on it (`Face`). There is one lemma per kind of step.

The window in `iput` is covered by the fields `early` and `orphan`.
Until the freed inode is on the disk its type there is not 0, so
`ialloc` cannot claim it, and its link count is 0, so no lookup finds
it: the reference of `iput` stays the only one. Afterwards `ialloc` may
take a second one; the entry is no longer valid when its lock is given
up, so the new owner reads what `ialloc` wrote.
-/

namespace Xv6

open Function Tally Finset Nat

variable {np : Nat}

/-! ## Faces -/

/-- What a process does with one entry. -/
inductive Role where
  | none
  | locking
  | loading
  | putting (st : PutStage)
  deriving DecidableEq

def IPc.role (e : InodeId) : IPc → Role
  | .locking e' => if e' = e then .locking else .none
  | .loading e' => if e' = e then .loading else .none
  | .putting e' st => if e' = e then .putting st else .none
  | .idle | .scan .. | .claimed .. => .none

/-- The stages before the freed inode is on the disk. -/
def PutStage.early : PutStage → Bool
  | .trunc | .update | .clear | .free => true
  | .invalidate | .unlock | .drop => false

/-- What concerns one entry. -/
structure Face (np : Nat) where
  ent : IEntry np
  disk : Inode
  held : Fin np → Nat
  role : Fin np → Role
  dirty : Bool
  /-- `ialloc` has claimed the inode and has no reference yet -/
  claimed : Prop

def ISys.Claimed (S : ISys np) (k : InodeKey) : Prop := ∃ q, S.pc q = .claimed k

def ISys.face (S : ISys np) (e : InodeId) : Face np where
  ent := S.ent e
  disk := S.disk (S.ent e).key
  held p := S.held p e
  role p := (S.pc p).role e
  dirty := S.dirty e
  claimed := S.Claimed (S.ent e).key

/-- A process is past the point where the freed inode is on the disk,
with the only reference. -/
def Face.Freed (f : Face np) : Prop :=
  f.ent.ref = 1 ∧ ∃ p st, f.role p = .putting st ∧ st.early = false

structure EntryInv (f : Face np) : Prop where
  /-- the reference count -/
  count : f.ent.ref = ∑ p, f.held p
  owner : ∀ p, f.ent.lock = some p → 0 < f.held p
  used : ∀ p, f.role p ≠ .none → 0 < f.held p
  loading : ∀ p, f.role p = .loading → f.ent.lock = some p
  valid : ∀ p, f.ent.lock = some p → f.ent.valid = true ∨ f.role p = .loading
    ∨ f.role p = .putting .unlock
  dirty : f.dirty = true → ∃ p, f.ent.lock = some p ∧ (f.role p = .none ∨ f.role p = .locking)
  typed : 0 < f.ent.ref → f.ent.valid = true →
    (∀ p, f.role p ≠ .putting .free ∧ f.role p ≠ .putting .invalidate) →
    f.ent.ip.type ≠ 0 ∧ f.disk.type = f.ent.ip.type
  clean : 0 < f.ent.ref → f.ent.valid = true → f.dirty = false →
    (∀ p st, f.role p = .putting st → st = .drop) → f.ent.ip = f.disk
  /-- a process in the window of `iput` -/
  early : ∀ p st, f.role p = .putting st → st.early = true →
    f.ent.ref = 1 ∧ f.ent.lock = some p ∧ f.ent.valid = true ∧ f.ent.ip.nlink = 0
      ∧ f.disk.nlink = 0 ∧ (st = .free → f.ent.ip.type = 0)
  late : ∀ p, f.role p = .putting .invalidate ∨ f.role p = .putting .unlock →
    f.ent.lock = some p
  unlock : ∀ p, f.role p = .putting .unlock → f.ent.valid = false
  orphan : 0 < f.ent.ref → f.disk.type = 0 ∨ f.claimed → f.Freed
  dropping : ∀ p, f.role p = .putting .drop → f.ent.lock ≠ some p

/-! ## What a step does to a face -/

variable {st : PutStage} {c : Prop} {d : Inode}

/-- The roles that free the entry are those of other processes, and
stay. -/
theorem putting_update {role : Fin np → Role} {p q : Fin np} {r : Role}
    (hold : ∀ st, role p ≠ .putting st) (hnew : ∀ st, r ≠ .putting st) :
    update role p r q = .putting st ↔ role q = .putting st := by
  by_cases hq : q = p
  · grind
  · rw [update_of_ne hq]

namespace EntryInv

variable {f : Face np} {p q : Fin np}

theorem ref_pos (h : EntryInv f) (hp : 0 < f.held p) : 0 < f.ent.ref := by
  rw [h.count]
  exact lt_of_lt_of_le hp (single_le_sum (fun _ _ => zero_le _) (mem_univ p))

/-- A single reference has one holder. -/
theorem holder_eq (h : EntryInv f) (href : f.ent.ref = 1) (hp : 0 < f.held p) (hq : 0 < f.held q) :
    p = q := by
  by_contra hne
  have hsum : f.held p + f.held q ≤ ∑ r, f.held r :=
    add_le_sum (mem_univ p) (mem_univ q) (Ne.symm hne)
  rw [← h.count] at hsum
  omega

/-- An entry without references does not depend on the disk. -/
theorem unref (h : EntryInv f) (h0 : f.ent.ref = 0) (d : Inode) (c : Prop) :
    EntryInv { f with disk := d, claimed := c } := by
  refine ⟨h.count, h.owner, h.used, h.loading, h.valid, h.dirty, fun hr => ?_, fun hr => ?_,
    fun p st hp hst => ?_, h.late, h.unlock, fun hr => ?_, h.dropping⟩
  · exact absurd h0 (ne_of_gt hr)
  · exact absurd h0 (ne_of_gt hr)
  · have := (h.early p st hp hst).1
    omega
  · exact absurd h0 (ne_of_gt hr)

/-- While process `p` does something else with its reference, the entry
is not in the window of `iput`. -/
theorem not_early (h : EntryInv f) (hp : 0 < f.held p) (hrole : f.role p = .none) :
    ∀ q st, f.role q = .putting st → st.early = false := by
  intro q st hq
  by_contra hst
  have href := (h.early q st hq (Bool.eq_true_of_not_eq_false hst)).1
  obtain rfl := h.holder_eq href hp (h.used q (by rw [hq]; exact nofun))
  rw [hrole] at hq
  cases hq

theorem not_freed (h : EntryInv f) (hp : 0 < f.held p) (hrole : f.role p = .none) : ¬f.Freed := by
  rintro ⟨href, q, st, hq, -⟩
  obtain rfl := h.holder_eq href hp (h.used q (by rw [hq]; exact nofun))
  rw [hrole] at hq
  cases hq

/-- One more reference. -/
theorem take (h : EntryInv f) (p : Fin np)
    (hearly : ∀ q st, f.role q = .putting st → st.early = false) (horphan : ¬(f.disk.type = 0 ∨ c))
    (hpos : 0 < f.ent.ref) :
    EntryInv { f with
      ent := { f.ent with ref := f.ent.ref + 1 }
      held := update f.held p (f.held p + 1)
      claimed := c } := by
  have hheld : ∀ q, 0 < f.held q → 0 < update f.held p (f.held p + 1) q := fun q hq => by
    grind
  refine ⟨?_, fun q hq => hheld q (h.owner q hq), fun q hq => hheld q (h.used q hq), h.loading,
    h.valid, h.dirty, fun _ => h.typed hpos, fun _ => h.clean hpos, fun q st hq hst => ?_, h.late,
    h.unlock, fun _ hor => absurd hor horphan, h.dropping⟩
  · have := sum_off (s := univ) (f := f.held)
      (g := update f.held p (f.held p + 1)) (mem_univ p)
      fun j hj => update_of_ne hj ..
    have hc := h.count
    grind
  · rw [hearly q st hq] at hst
    cases hst

/-- Without references there is no lock and nobody at work. -/
theorem idle_of_unref (h : EntryInv f) (h0 : f.ent.ref = 0) :
    f.ent.lock = none ∧ (∀ q, f.role q = .none) ∧ f.dirty = false := by
  have hlock : f.ent.lock = none := by
    by_contra hne
    obtain ⟨q, hq⟩ := Option.ne_none_iff_exists'.mp hne
    have := h.ref_pos (h.owner q hq)
    omega
  refine ⟨hlock, fun q => ?_, ?_⟩
  · by_contra hq
    have := h.ref_pos (h.used q hq)
    omega
  · by_contra hd
    obtain ⟨q, hq, -⟩ := h.dirty (Bool.eq_true_of_not_eq_false hd)
    rw [hlock] at hq
    cases hq

/-- The entry is recycled. -/
theorem recycle (h : EntryInv f) (h0 : f.ent.ref = 0) (p : Fin np) (k : InodeKey)
    (horphan : ¬(d.type = 0 ∨ c)) :
    EntryInv { f with
      ent := { f.ent with dev := k.1, inum := k.2, ref := 1, valid := false }
      disk := d
      held := update f.held p (f.held p + 1)
      claimed := c } := by
  obtain ⟨hlock, hrole, hdirty⟩ := h.idle_of_unref h0
  have hnone : ∀ {q st}, f.role q ≠ .putting st := fun {q st} hq => by
    rw [hrole q] at hq
    cases hq
  have hlocked : ∀ {q}, f.ent.lock ≠ some q := fun hq => by
    rw [hlock] at hq
    cases hq
  refine ⟨?_, fun q hq => absurd hq hlocked, fun q hq => absurd (hrole q) hq, fun q hq => ?_,
    fun q hq => absurd hq hlocked, fun hd => ?_, fun _ hv => absurd hv Bool.false_ne_true,
    fun _ hv => absurd hv Bool.false_ne_true,
    fun q st hq => absurd hq hnone, fun q hq => ?_, fun q hq => absurd hq hnone,
    fun _ hor => absurd hor horphan, fun q hq => absurd hq hnone⟩
  · have := sum_off (s := univ) (f := f.held)
      (g := update f.held p (f.held p + 1)) (mem_univ p)
      fun j hj => update_of_ne hj ..
    have hc := h.count
    grind
  · grind
  · grind
  · grind

/-- A process moves between roles in which it works on the entry without
freeing it. -/
theorem setRole (h : EntryInv f) (hp : 0 < f.held p) (hold : ∀ st, f.role p ≠ .putting st)
    {r : Role} (hnew : ∀ st, r ≠ .putting st) (hlock : r = .loading → f.ent.lock = some p)
    (hvalid : f.ent.lock = some p → f.ent.valid = true ∨ r = .loading)
    (hdirty : f.dirty = true → f.ent.lock = some p → r = .none ∨ r = .locking) :
    EntryInv { f with role := update f.role p r } := by
  have hput : ∀ {q st}, update f.role p r q = .putting st ↔ f.role q = .putting st :=
    putting_update hold hnew
  refine ⟨h.count, h.owner, fun q hq => ?_, fun q hq => ?_, fun q hq => ?_, fun hd => ?_,
    fun hr hv hno => h.typed hr hv fun q => ⟨fun hc => (hno q).1 (hput.mpr hc), fun hc =>
      (hno q).2 (hput.mpr hc)⟩,
    fun hr hv hd hno => h.clean hr hv hd fun q st hq => hno q st (hput.mpr hq),
    fun q st hq => h.early q st (hput.mp hq), fun q hq => h.late q (hq.imp hput.mp hput.mp),
    fun q hq => h.unlock q (hput.mp hq), fun hr hor => ?_, fun q hq => h.dropping q (hput.mp hq)⟩
  · by_cases hqp : q = p
    · exact hqp ▸ hp
    · have hq' : update f.role p r q ≠ .none := hq
      rw [update_of_ne hqp] at hq'
      exact h.used q hq'
  · have hq' : update f.role p r q = .loading := hq
    by_cases hqp : q = p
    · grind
    · rw [update_of_ne hqp] at hq'
      exact h.loading q hq'
  · by_cases hqp : q = p
    · grind
    · show f.ent.valid = true ∨ update f.role p r q = .loading ∨ _
      rw [update_of_ne hqp]
      exact (h.valid q hq).imp_right fun hc => hc.imp_right hput.mpr
  · obtain ⟨q, hq, hrole⟩ := h.dirty hd
    grind
  · obtain ⟨href, q, st, hq, hst⟩ := h.orphan hr hor
    exact ⟨href, q, st, hput.mpr hq, hst⟩

/-- `acquiresleep` in `ilock`. -/
theorem acquire (h : EntryInv f) (hrole : f.role p = .locking) (hfree : f.ent.lock = none) :
    EntryInv { f with
      ent := { f.ent with lock := some p }
      role := update f.role p .loading } := by
  have hp := h.used p (by rw [hrole]; exact nofun)
  have hput : ∀ {q st}, update f.role p .loading q = .putting st ↔
      f.role q = .putting st :=
    putting_update (fun st hc => by rw [hrole] at hc; cases hc) fun st => nofun
  have hnolock : ∀ {q}, f.ent.lock ≠ some q := fun hq => by
    rw [hfree] at hq
    cases hq
  refine ⟨h.count, fun q hq => ?_, fun q hq => ?_, fun q hq => ?_, fun q hq => ?_, fun hd => ?_,
    fun hr hv hno => h.typed hr hv fun q => ⟨fun hc => (hno q).1 (hput.mpr hc), fun hc =>
      (hno q).2 (hput.mpr hc)⟩,
    fun hr hv hd hno => h.clean hr hv hd fun q st hq => hno q st (hput.mpr hq),
    fun q st hq hst => absurd (h.early q st (hput.mp hq) hst).2.1 hnolock,
    fun q hq => absurd (h.late q (hq.imp hput.mp hput.mp)) hnolock,
    fun q hq => h.unlock q (hput.mp hq), fun hr hor => ?_, fun q hq hc => ?_⟩
  · grind
  · by_cases hqp : q = p
    · exact hqp ▸ hp
    · have hq' : update f.role p .loading q ≠ .none := hq
      rw [update_of_ne hqp] at hq'
      exact h.used q hq'
  · have hq' : update f.role p .loading q = .loading := hq
    by_cases hqp : q = p
    · rw [hqp]
    · rw [update_of_ne hqp] at hq'
      exact absurd (h.loading q hq') hnolock
  · grind
  · obtain ⟨q, hq, -⟩ := h.dirty hd
    exact absurd hq hnolock
  · obtain ⟨href, q, st, hq, hst⟩ := h.orphan hr hor
    exact ⟨href, q, st, hput.mpr hq, hst⟩
  · grind

/-- The lock holder changes its entry and writes it back, or one of the
two. -/
theorem modify (h : EntryInv f) (hlock : f.ent.lock = some p) (hrole : f.role p = .none) {x : Inode}
    {b : Bool} (hx : x.type = f.ent.ip.type) (hd : d = f.disk ∧ b = true ∨ d = x ∧ b = false) :
    EntryInv { f with ent := { f.ent with ip := x }, disk := d, dirty := b } := by
  have hp := h.owner p hlock
  have hearly := h.not_early hp hrole
  -- nobody else has the lock, so nobody is freeing the entry
  have hnoput : ∀ {q}, f.role q ≠ .putting .free ∧ f.role q ≠ .putting .invalidate := by
    intro q
    refine ⟨fun hq => (by cases hearly q _ hq), fun hq => ?_⟩
    have hq' := h.late q (.inl hq)
    grind
  have hvalid : f.ent.valid = true := by
    rcases h.valid p hlock with hv | hv | hv
    · exact hv
    · rw [hrole] at hv
      cases hv
    · rw [hrole] at hv
      cases hv
  have htyped := h.typed (h.ref_pos hp) hvalid fun q => hnoput
  refine ⟨h.count, h.owner, h.used, h.loading, h.valid, fun _ => ⟨p, hlock, .inl hrole⟩,
    fun _ _ _ => ?_, fun _ _ hb _ => ?_, fun q st hq hst => ?_, h.late, h.unlock,
    fun hr hor => h.orphan hr (hor.imp_left fun h0 => ?_), h.dropping⟩
  · grind
  · grind
  · rw [hearly q st hq] at hst
    cases hst
  · grind

/-- `ilock` reads the inode. -/
theorem load (h : EntryInv f) (hrole : f.role p = .loading) (htype : f.disk.type ≠ 0) :
    EntryInv { f with ent := { f.ent with ip := f.disk, valid := true } } := by
  have hlock := h.loading p hrole
  have hmine : ∀ {q}, f.ent.lock = some q → q = p := fun hq => by grind
  have hearly : ∀ q st, f.role q = .putting st → st.early = false := fun q st hq => by
    by_contra hst
    have hq' := (h.early q st hq (Bool.eq_true_of_not_eq_false hst)).2.1
    grind
  refine ⟨h.count, h.owner, h.used, h.loading, fun _ _ => .inl rfl, fun hd => ?_,
    fun _ _ _ => ⟨htype, rfl⟩, fun _ _ _ _ => rfl, fun q st hq hst => ?_, h.late,
    fun q hq => ?_, h.orphan, h.dropping⟩
  · obtain ⟨q, hq, hnone⟩ := h.dirty hd
    exact ⟨q, hq, hnone⟩
  · rw [hearly q st hq] at hst
    cases hst
  · obtain rfl := hmine (h.late q (.inr hq))
    grind

/-- The references are counted anew; a process in a role, or with the
lock, keeps one. -/
theorem rehold (h : EntryInv f) {held : Fin np → Nat} (hsum : ∑ q, held q = ∑ q, f.held q)
    (hheld : ∀ q, f.role q ≠ .none ∨ f.ent.lock = some q → 0 < held q) :
    EntryInv { f with held := held } :=
  ⟨h.count.trans hsum.symm, fun q hq => hheld q (.inr hq), fun q hq => hheld q (.inl hq),
    h.loading, h.valid, h.dirty, h.typed, h.clean, h.early, h.late, h.unlock, h.orphan,
    h.dropping⟩

/-- `ip->ref--` by a process that does nothing else with the entry,
and does not leave it for good in the window. -/
theorem drop (h : EntryInv f) (hp : 0 < f.held p) (hrole : f.role p = .none ∨
      f.role p = .putting .drop) (hlock : f.ent.lock ≠ some p) :
    EntryInv { f with
      ent := { f.ent with ref := f.ent.ref - 1 }
      held := update f.held p (f.held p - 1)
      role := update f.role p .none } := by
  have hpos := h.ref_pos hp
  have hother : ∀ {q}, q ≠ p → update f.role p .none q = f.role q := fun hq =>
    update_of_ne hq ..
  have hne : ∀ {q r}, update f.role p .none q = r → r ≠ .none → q ≠ p ∧ f.role q = r := by
    grind
  have hput : ∀ {q st}, f.role q = .putting st → st ≠ .drop →
      update f.role p .none q = .putting st := by
    intro q st hq hst
    by_cases hqp : q = p
    · grind
    · rw [hother hqp, hq]
  -- an early or late stage of another process is one with the only reference
  have hsingle : ∀ {q}, q ≠ p → 0 < f.held q → f.ent.ref ≠ 1 := fun hqp hq href =>
    hqp (h.holder_eq href hq hp)
  have hheld : ∀ {q}, q ≠ p → update f.held p (f.held p - 1) q = f.held q := fun hq =>
    update_of_ne hq ..
  refine ⟨?_, fun q hq => ?_, fun q hq => ?_, fun q hq => ?_, fun q hq => ?_, fun hd => ?_,
    fun hr hv hno => h.typed hpos hv fun q => ⟨fun hc => (hno q).1 (hput hc nofun), fun hc =>
      (hno q).2 (hput hc nofun)⟩,
    fun hr hv hd hno => h.clean hpos hv hd fun q st hq => ?_, fun q st hq hst => ?_,
    fun q hq => ?_, fun q hq => h.unlock q (hne hq nofun).2, fun hr hor => ?_,
    fun q hq => h.dropping q (hne hq nofun).2⟩
  · have := sum_off (s := univ) (f := f.held)
      (g := update f.held p (f.held p - 1)) (mem_univ p)
      fun j hj => update_of_ne hj ..
    have hc := h.count
    grind
  · have hqp : q ≠ p := fun hc => hlock (hc ▸ hq)
    show 0 < update f.held p (f.held p - 1) q
    rw [hheld hqp]
    exact h.owner q hq
  · have hqp : q ≠ p := by grind
    have hq' : update f.role p .none q ≠ .none := hq
    rw [hother hqp] at hq'
    show 0 < update f.held p (f.held p - 1) q
    rw [hheld hqp]
    exact h.used q hq'
  · exact h.loading q (hne hq nofun).2
  · have hqp : q ≠ p := fun hc => hlock (hc ▸ hq)
    show f.ent.valid = true ∨ update f.role p .none q = .loading ∨
      update f.role p .none q = .putting .unlock
    rw [hother hqp]
    exact h.valid q hq
  · obtain ⟨q, hq, hnone⟩ := h.dirty hd
    grind
  · by_contra hst
    exact hst (hno q st (hput hq hst))
  · obtain ⟨hqp, hq'⟩ := hne hq nofun
    exact absurd (h.early q st hq' hst).1 (hsingle hqp (h.used q (by rw [hq']; exact nofun)))
  · rcases hq with hq | hq
    · exact h.late q (.inl (hne hq nofun).2)
    · exact h.late q (.inr (hne hq nofun).2)
  · have hr' : 0 < f.ent.ref - 1 := hr
    obtain ⟨href, -⟩ := h.orphan hpos hor
    omega

/-- The facts of the window of `iput`: one reference, one process, its
lock. -/
theorem of_window (hcount : f.ent.ref = ∑ q, f.held q) (href : f.ent.ref = 1) (hp : 0 < f.held p)
    (hlock : f.ent.lock = some p) (hrole : f.role p = .putting st)
    (hothers : ∀ q ≠ p, f.role q = .none) (hdirty : f.dirty = false) (hvalid : f.ent.valid = true)
    (hlinks : f.ent.ip.nlink = 0 ∧ f.disk.nlink = 0) (hdrop : st ≠ .unlock ∧ st ≠ .drop)
    (hfree : st = .free → f.ent.ip.type = 0)
    (htyped : st ≠ .free → st ≠ .invalidate → f.ent.ip.type ≠ 0 ∧ f.disk.type = f.ent.ip.type)
    (horphan : f.disk.type = 0 ∨ f.claimed → st = .invalidate) : EntryInv f := by
  have hwho : ∀ {q}, f.role q ≠ .none → q = p := fun {q} hq => by
    by_contra hne
    exact hq (hothers q hne)
  have hst : ∀ {q st'}, f.role q = .putting st' → q = p ∧ st' = st := fun {q st'} hq => by grind
  have hmine : ∀ {q}, f.ent.lock = some q → q = p := fun hq => by grind
  refine ⟨hcount, fun q hq => hmine hq ▸ hp, fun q hq => hwho hq ▸ hp, fun q hq => ?_,
    fun q hq => .inl hvalid, fun hd => ?_, fun _ _ hno => ?_, fun _ _ _ hno => ?_,
    fun q st' hq hearly => ?_, fun q hq => ?_, fun q hq => absurd (hst hq).2.symm hdrop.1,
    fun _ hor => ?_, fun q hq => absurd (hst hq).2.symm hdrop.2⟩
  · grind
  · rw [hdirty] at hd
    cases hd
  · exact htyped (fun hc => (hno p).1 (hc ▸ hrole)) fun hc => (hno p).2 (hc ▸ hrole)
  · exact absurd (hno p st hrole) hdrop.2
  · grind
  · grind
  · have hinv := horphan hor
    exact ⟨href, p, st, hrole, by rw [hinv]; rfl⟩

/-- What the window fixes. -/
theorem window (h : EntryInv f) (hrole : f.role p = .putting st) (hearly : st.early = true) :
    0 < f.held p ∧ (∀ q ≠ p, f.role q = .none) ∧ f.dirty = false
      ∧ ¬(f.disk.type = 0 ∨ f.claimed) := by
  obtain ⟨href, hlock, -⟩ := h.early p st hrole hearly
  have hp := h.used p (by rw [hrole]; exact nofun)
  have hwho : ∀ {q}, f.role q ≠ .none → q = p := fun hq => h.holder_eq href (h.used _ hq) hp
  refine ⟨hp, fun q hq => ?_, ?_, fun hor => ?_⟩
  · by_contra hne
    exact hq (hwho hne)
  · by_contra hd
    obtain ⟨q, hq, hnone⟩ := h.dirty (Bool.eq_true_of_not_eq_false hd)
    grind
  · obtain ⟨-, q, st', hq, hlate⟩ := h.orphan (h.ref_pos hp) hor
    grind

/-- A statement of `iput` in the window: the entry and the disk change,
and the process goes to the next stage. -/
theorem window_step (h : EntryInv f) {st' : PutStage} (hrole : f.role p = .putting st)
    (hearly : st.early = true) {x : Inode} (hx : x.nlink = f.ent.ip.nlink)
    (hd : d = f.disk ∨ d = f.ent.ip) (hnext : st' ≠ .unlock ∧ st' ≠ .drop)
    (hfree : st' = .free → x.type = 0)
    (htyped : st' ≠ .free → st' ≠ .invalidate → x.type ≠ 0 ∧ d.type = x.type)
    (horphan : st' ≠ .invalidate → d.type ≠ 0) :
    EntryInv { f with
      ent := { f.ent with ip := x }
      disk := d
      role := update f.role p (.putting st')
      dirty := false } := by
  obtain ⟨href, hlock, hvalid, hnl, hdnl, -⟩ := h.early p st hrole hearly
  obtain ⟨hp, hothers, -, hown⟩ := h.window hrole hearly
  refine of_window h.count href hp hlock (update_self ..) (fun q hq => ?_) rfl hvalid
    ⟨hx.trans hnl, ?_⟩ hnext hfree htyped fun hor => ?_
  · grind
  · grind
  · by_contra hne
    grind

/-- `ip->valid = 0`. -/
theorem invalidate (h : EntryInv f) (hrole : f.role p = .putting .invalidate) :
    EntryInv { f with
      ent := { f.ent with valid := false }
      role := update f.role p (.putting .unlock) } := by
  have hlock := h.late p (.inl hrole)
  have hp := h.used p (by rw [hrole]; exact nofun)
  have hmine : ∀ {q}, f.ent.lock = some q → q = p := fun hq => by grind
  have hother : ∀ {q}, q ≠ p → update f.role p (.putting .unlock) q = f.role q := fun hq =>
    update_of_ne hq ..
  have hself : update f.role p (.putting .unlock) p = .putting .unlock :=
    update_self ..
  refine ⟨h.count, h.owner, fun q hq => ?_, fun q hq => ?_, fun q hq => .inr (.inr ?_), fun hd => ?_,
    fun _ hv => absurd hv Bool.false_ne_true, fun _ hv => absurd hv Bool.false_ne_true,
    fun q st hq hst => ?_, fun q hq => ?_, fun _ _ => rfl, fun hr hor => ?_, fun q hq hc => ?_⟩
  · by_cases hqp : q = p
    · exact hqp ▸ hp
    · have hq' : update f.role p (.putting .unlock) q ≠ .none := hq
      rw [hother hqp] at hq'
      exact h.used q hq'
  · have hq' : update f.role p (.putting .unlock) q = .loading := hq
    by_cases hqp : q = p
    · rw [hqp, hself] at hq'
      cases hq'
    · rw [hother hqp] at hq'
      exact h.loading q hq'
  · obtain rfl := hmine hq
    exact hself
  · obtain ⟨q, hq, hnone⟩ := h.dirty hd
    grind
  · have hq' : update f.role p (.putting .unlock) q = .putting st := hq
    by_cases hqp : q = p
    · rw [hqp, hself] at hq'
      obtain rfl := Role.putting.inj hq'
      cases hst
    · rw [hother hqp] at hq'
      exact absurd (hmine (h.early q st hq' hst).2.1) hqp
  · by_cases hqp : q = p
    · rw [hqp]
      exact hlock
    · have hq' : update f.role p (.putting .unlock) q = .putting .invalidate
          ∨ update f.role p (.putting .unlock) q = .putting .unlock := hq
      rw [hother hqp] at hq'
      exact h.late q hq'
  · exact ⟨(h.orphan hr hor).1, p, .unlock, hself, rfl⟩
  · grind

/-- `releasesleep(&ip->lock)` in `iput`. -/
theorem put_unlock (h : EntryInv f) (hrole : f.role p = .putting .unlock) :
    EntryInv { f with
      ent := { f.ent with lock := none }
      role := update f.role p (.putting .drop) } := by
  have hlock := h.late p (.inr hrole)
  have hvalid := h.unlock p hrole
  have hp := h.used p (by rw [hrole]; exact nofun)
  have hmine : ∀ {q}, f.ent.lock = some q → q = p := fun hq => by grind
  have hother : ∀ {q}, q ≠ p → update f.role p (.putting .drop) q = f.role q := fun hq =>
    update_of_ne hq ..
  have hself : update f.role p (.putting .drop) p = .putting .drop :=
    update_self ..
  -- whoever is at a stage that needs the lock is `p`
  have hno : ∀ {q st}, update f.role p (.putting .drop) q = .putting st →
      st ≠ .drop → q ≠ p ∧ f.role q = .putting st := by
    intro q st hq hst
    have hqp : q ≠ p := by grind
    rw [hother hqp] at hq
    exact ⟨hqp, hq⟩
  have hv : f.ent.valid ≠ true := fun hc => by
    rw [hvalid] at hc
    cases hc
  refine ⟨h.count, fun q hq => (by cases hq), fun q hq => ?_, fun q hq => ?_,
    fun q hq => (by cases hq), fun hd => ?_, fun _ hc => absurd hc hv, fun _ hc => absurd hc hv,
    fun q st hq hst => ?_, fun q hq => ?_, fun q hq => hvalid, fun hr hor => ?_, fun q _ => nofun⟩
  · by_cases hqp : q = p
    · exact hqp ▸ hp
    · have hq' : update f.role p (.putting .drop) q ≠ .none := hq
      rw [hother hqp] at hq'
      exact h.used q hq'
  · have hq' : update f.role p (.putting .drop) q = .loading := hq
    by_cases hqp : q = p
    · rw [hqp, hself] at hq'
      cases hq'
    · rw [hother hqp] at hq'
      exact absurd (hmine (h.loading q hq')) hqp
  · obtain ⟨q, hq, hnone⟩ := h.dirty hd
    grind
  · obtain ⟨hqp, hq'⟩ := hno hq (by rintro rfl; cases hst)
    exact absurd (hmine (h.early q st hq' hst).2.1) hqp
  · rcases hq with hq | hq
    · obtain ⟨hqp, hq'⟩ := hno hq nofun
      exact absurd (hmine (h.late q (.inl hq'))) hqp
    · obtain ⟨hqp, hq'⟩ := hno hq nofun
      exact absurd (hmine (h.late q (.inr hq'))) hqp
  · exact ⟨(h.orphan hr hor).1, p, .drop, hself, rfl⟩

/-- `ialloc` claims the inode of an entry in use, which is freed. -/
theorem reclaim (h : EntryInv f) (hpos : 0 < f.ent.ref) (hfree : f.disk.type = 0) :
    EntryInv { f with disk := d, claimed := c } := by
  obtain ⟨href, p, st, hp, hlate⟩ := h.orphan hpos (.inl hfree)
  -- the only reference belongs to a process past the window
  have hwho : ∀ {q}, f.role q ≠ .none → q = p := fun hq =>
    h.holder_eq href (h.used _ hq) (h.used p (by rw [hp]; exact nofun))
  have hst : ∀ {q st'}, f.role q = .putting st' → st' = st := fun {q st'} hq => by grind
  have hinv : f.ent.valid = true → st = .invalidate := fun hv => by
    by_contra hne
    obtain ⟨htype, hsame⟩ := h.typed hpos hv fun q => ⟨fun hq => (by
      rw [← hst hq] at hlate
      cases hlate), fun hq => hne (hst hq).symm⟩
    exact htype (hsame.symm.trans hfree)
  refine ⟨h.count, h.owner, h.used, h.loading, h.valid, h.dirty, fun _ hv hno => ?_,
    fun _ hv _ hno => ?_, fun q st' hq hst' => ?_, h.late, h.unlock,
    fun _ _ => ⟨href, p, st, hp, hlate⟩, h.dropping⟩
  · grind
  · grind
  · rw [hst hq, hlate] at hst'
    cases hst'

end EntryInv

end Xv6
