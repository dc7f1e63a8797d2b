import Xv6.Ownership
import Xv6.Virtio

/-!
# Driver and device stay in step

The invariant gives each posted head one place: the avail ring, the
device, or the used ring (`Sys.flight`). A head is in flight exactly when
a caller has posted it and `b->disk` is still set. The callers' chains
own the descriptors that are not free, and since a head is one of `NUM`
descriptors, a ring never fills up.
-/

namespace Xv6.Virtio

open Function Ownership List Option

variable {s s' : Sys} {p q i : Nat} {c : Call} {ch : Chain}

/-! ## Descriptors -/

section Pool

variable {P : Pool}

theorem allocDesc_some {Q : Pool} (h : allocDesc P = some (i, Q)) :
    i < NUM ∧ P.free i = true ∧ Q.desc = P.desc ∧
      ∀ j, Q.free j = if j = i then false else P.free j := by
  unfold allocDesc at h
  split at h
  case h_1 k hk =>
    cases h
    grind
  case h_2 => cases h

theorem freeDesc_ok (hi : i < NUM) (hf : P.free i = false) :
    ∃ Q, freeDesc P i = .ok Q ∧ (∀ j, j ≠ i → Q.desc j = P.desc j) ∧
      ∀ j, Q.free j = if j = i then true else P.free j := by
  refine ⟨⟨update P.desc i ⟨.null, 0, 0, 0⟩, update P.free i true⟩, ?_,
    fun j hj => update_of_ne hj .., fun j => update_apply ..⟩
  rw [freeDesc, if_neg (by omega), if_neg (by rw [hf]; exact Bool.false_ne_true)]

/-- A descriptor of a chain. -/
def Chain.Has (ch : Chain) (i : Nat) : Prop := i = ch.i0 ∨ i = ch.i1 ∨ i = ch.i2

structure Chain.Distinct (ch : Chain) : Prop where
  h01 : ch.i0 ≠ ch.i1
  h02 : ch.i0 ≠ ch.i2
  h12 : ch.i1 ≠ ch.i2

/-- What `alloc3_desc` does. It never panics. It takes three free
descriptors, or it leaves `free` and the descriptors in use as they are. -/
theorem alloc3Desc_spec (P : Pool) :
    (∃ ch Q, alloc3Desc P = .ok (some ch, Q) ∧ ch.Distinct ∧ Q.desc = P.desc ∧
      (∀ i, ch.Has i → i < NUM ∧ P.free i = true) ∧
      ∀ i, Q.free i = false ↔ ch.Has i ∨ P.free i = false) ∨
    ∃ Q, alloc3Desc P = .ok (none, Q) ∧ (∀ i, Q.free i = P.free i) ∧
      ∀ i, P.free i = false → Q.desc i = P.desc i := by
  unfold alloc3Desc
  cases h0 : allocDesc P with
  | none => exact .inr ⟨P, rfl, fun _ => rfl, fun _ _ => rfl⟩
  | some r0 =>
    obtain ⟨i0, P0⟩ := r0
    obtain ⟨hi0, hf0, hd0, hfree0⟩ := allocDesc_some h0
    dsimp only
    cases h1 : allocDesc P0 with
    | none =>
      obtain ⟨Q, hQ, hd, hfree⟩ := freeDesc_ok (P := P0) hi0 (by rw [hfree0, if_pos rfl])
      refine .inr ⟨Q, by rw [hQ]; rfl, fun i => ?_, fun i hi => ?_⟩ <;> grind
    | some r1 =>
      obtain ⟨i1, P1⟩ := r1
      obtain ⟨hi1, hf1, hd1, hfree1⟩ := allocDesc_some h1
      dsimp only
      cases h2 : allocDesc P1 with
      | none =>
        obtain ⟨Q0, hQ0, hdQ0, hfreeQ0⟩ := freeDesc_ok (P := P1) hi0 (by grind)
        obtain ⟨Q, hQ, hdQ, hfreeQ⟩ := freeDesc_ok (P := Q0) hi1 (by grind)
        have hrun : (freeDesc P1 i0 >>= fun P => freeDesc P i1 >>= fun P =>
            (.ok (none, P) : Except Panic (Option Chain × Pool))) = .ok (none, Q) := by
          rw [hQ0]
          show (freeDesc Q0 i1 >>= _) = _
          rw [hQ]
          rfl
        grind
      | some r2 =>
        obtain ⟨i2, P2⟩ := r2
        obtain ⟨hi2, hf2, hd2, hfree2⟩ := allocDesc_some h2
        refine .inl ⟨⟨i0, i1, i2⟩, P2, rfl, ⟨?_, ?_, ?_⟩, ?_, fun i hi => ?_, fun i => ?_⟩ <;>
          grind [Chain.Has]

/-- One round of `free_chain` on a descriptor that is in use. -/
theorem freeChain_succ (fuel : Nat) (hi : i < NUM) (hf : P.free i = false) :
    ∃ Q, (∀ j, j ≠ i → Q.desc j = P.desc j) ∧ (∀ j, Q.free j = if j = i then true else P.free j) ∧
      freeChain (fuel + 1) P i =
        if (P.desc i).flags &&& VRING_DESC_F_NEXT ≠ 0 then freeChain fuel Q (P.desc i).next
        else .ok Q := by
  obtain ⟨Q, hQ, hd, hfree⟩ := freeDesc_ok hi hf
  refine ⟨Q, hd, hfree, ?_⟩
  rw [freeChain, hQ]
  rfl

end Pool

/-! ## The invariant -/

def Pc.call? : Pc → Option Call
  | .out => none
  | .alloc c | .sleepFree c | .format c _ _ | .test c _ | .sleepDone c _ | .done c _ => some c

def Pc.chain? : Pc → Option Chain
  | .out | .alloc _ | .sleepFree _ => none
  | .format _ ch _ | .test _ ch | .sleepDone _ ch | .done _ ch => some ch

/-- The request of a caller past `avail->idx += 1`. -/
def Pc.posted? : Pc → Option (Call × Chain)
  | .test c ch | .sleepDone c ch | .done c ch => some (c, ch)
  | _ => none

/-- The caller holds `vdisk_lock`. -/
def Pc.Holds : Pc → Prop
  | .out | .sleepFree _ | .sleepDone _ _ => False
  | _ => True

theorem Pc.chain?_of_posted? {k : Pc} (h : k.posted? = some (c, ch)) : k.chain? = some ch := by
  cases k <;> cases h <;> rfl

theorem Pc.call?_of_posted? {k : Pc} (h : k.posted? = some (c, ch)) : k.call? = some c := by
  cases k <;> cases h <;> rfl

def Chain.at (ch : Chain) : Fin 3 → Nat
  | 0 => ch.i0
  | 1 => ch.i1
  | 2 => ch.i2

/-- The descriptors of the callers' chains. -/
def Sys.slots (s : Sys) (x : Nat × Fin 3) : Option Nat := (s.pc x.1).chain?.map (·.at x.2)

def Sys.InUse (s : Sys) (i : Nat) : Prop := i < NUM ∧ s.pool.free i = false

/-- The first `k` groups of stores of a request stand. -/
structure Sys.Stored (s : Sys) (c : Call) (ch : Chain) (k : Nat) : Prop where
  header : 0 < k → s.ops ch.i0 = headerOf c
  head : 1 < k → s.pool.desc ch.i0 = headDesc ch
  data : 2 < k → s.pool.desc ch.i1 = dataDesc c ch
  status : 3 < k → s.pool.desc ch.i2 = statusDesc ch
  info : 4 < k → s.infoB ch.i0 = some c.b

/-- The chain is formatted for the request. -/
def Sys.Formatted (s : Sys) (c : Call) (ch : Chain) : Prop := s.Stored c ch 5

def Sys.Stage (s : Sys) : Pc → Prop
  | .format c ch k =>
      k ≤ 6 ∧ s.Stored c ch k ∧ (4 < k → s.disk c.b = true) ∧
        (k = 6 → s.avail.cell s.avail.wr = ch.i0)
  | .test c ch | .sleepDone c ch => s.Formatted c ch
  | .done c ch => s.Formatted c ch ∧ s.disk c.b = false
  | _ => True

/-- The heads posted and not yet seen completed. -/
def Sys.flight (s : Sys) : List Nat :=
  s.avail.queue ++ (s.taken ++ (s.ready ++ (s.writing.toList ++ s.used.queue)))

/-- A caller waits for the completion of `h`. -/
def Sys.Awaited (s : Sys) (h : Nat) : Prop :=
  ∃ p c ch, (s.pc p).posted? = some (c, ch) ∧ ch.i0 = h ∧ s.disk c.b = true

structure Inv (s : Sys) : Prop where
  avail_wf : s.avail.Wf
  used_wf : s.used.Wf
  lock : ∀ p, s.vdiskLock = some (.caller p) ↔ (s.pc p).Holds
  owner : ∀ {p c}, (s.pc p).call? = some c →
    s.bufLock c.b = some p ∧ c.sector = sectorOf (s.blockno c.b)
  exact : Exact s.slots s.InUse
  nodup : s.flight.Nodup
  flight : ∀ {h}, h ∈ s.flight ↔ s.Awaited h
  stage : ∀ p, s.Stage (s.pc p)
  statusZero : ∀ {h}, h ∈ s.ready ++ (s.writing.toList ++ s.used.queue) → s.status h = 0
  writing : ∀ {h}, s.writing = some h → s.used.cell s.used.wr = h
  panic : s.panic = none

theorem boot_ring_wf : (⟨fun _ => 0, 0, 0⟩ : RingQueue Nat NUM (2 ^ 16)).Wf :=
  ⟨Nat.two_pow_pos 16, Nat.two_pow_pos 16⟩

theorem boot_inv (blockno : Nat → Nat) : Inv (boot blockno) := by
  have hnil : (boot blockno).used.queue = [] := RingQueue.queue_eq_nil boot_ring_wf rfl
  have hflight : (boot blockno).flight = [] := by
    have hnil' : (boot blockno).avail.queue = [] := RingQueue.queue_eq_nil boot_ring_wf rfl
    rw [Sys.flight, hnil, hnil']
    rfl
  constructor
  case avail_wf => exact boot_ring_wf
  case used_wf => exact boot_ring_wf
  case lock => exact fun p => ⟨fun h => (nomatch h), fun h => h.elim⟩
  case owner =>
    intro p c h
    cases h
  case exact =>
    refine ⟨fun h => (by cases h), fun h => (by cases h), fun {i} hi => ?_⟩
    have hfree : decide (i < NUM) = false := hi.2
    rw [decide_eq_true hi.1] at hfree
    cases hfree
  case nodup =>
    rw [hflight]
    exact nodup_nil
  case flight =>
    intro h
    rw [hflight]
    exact ⟨fun hm => (nomatch hm), fun ⟨_, _, _, hp, _⟩ => nomatch hp⟩
  case stage => exact fun _ => trivial
  case statusZero => exact fun _ => rfl
  case writing =>
    intro h hw
    cases hw
  case panic => rfl

/-! ### What the chains share

Nothing: the slots own the descriptors in use exactly. -/

theorem Chain.has_iff : ch.Has i ↔ ∃ j, ch.at j = i := by
  constructor
  · rintro (h | h | h)
    exacts [⟨0, h.symm⟩, ⟨1, h.symm⟩, ⟨2, h.symm⟩]
  · rintro ⟨j, rfl⟩
    match j with
    | 0 => exact .inl rfl
    | 1 => exact .inr (.inl rfl)
    | 2 => exact .inr (.inr rfl)

theorem Chain.Distinct.at_inj (hd : ch.Distinct) {j j' : Fin 3} (h : ch.at j = ch.at j') :
    j = j' := by
  obtain ⟨h01, h02, h12⟩ := hd
  match j, j' with
  | 0, 0 | 1, 1 | 2, 2 => rfl
  | 0, 1 => exact (h01 h).elim
  | 0, 2 => exact (h02 h).elim
  | 1, 0 => exact (h01 h.symm).elim
  | 1, 2 => exact (h12 h).elim
  | 2, 0 => exact (h02 h.symm).elim
  | 2, 1 => exact (h12 h.symm).elim

theorem slots_of_chain {j : Fin 3} (h : (s.pc p).chain? = some ch) :
    s.slots (p, j) = some (ch.at j) := by
  show (s.pc p).chain?.map _ = _
  rw [h]
  rfl

theorem slots_inv {x : Nat × Fin 3} (h : s.slots x = some i) :
    ∃ ch, (s.pc x.1).chain? = some ch ∧ ch.at x.2 = i := map_eq_some_iff.mp h

theorem Inv.inUse (hi : Inv s) (hc : (s.pc p).chain? = some ch) (h : ch.Has i) :
    s.InUse i := by
  obtain ⟨j, rfl⟩ := Chain.has_iff.mp h
  exact hi.exact.mem (slots_of_chain hc)

theorem Inv.disjoint (hi : Inv s) {ch' : Chain} (hpq : q ≠ p) (hc : (s.pc p).chain? = some ch)
    (hc' : (s.pc q).chain? = some ch') (h : ch.Has i) : ¬ch'.Has i := by
  intro h'
  obtain ⟨j, rfl⟩ := Chain.has_iff.mp h
  obtain ⟨j', hj'⟩ := Chain.has_iff.mp h'
  have hslot := slots_of_chain (j := j') hc'
  rw [hj'] at hslot
  exact hpq (congrArg Prod.fst (hi.exact.inj hslot (slots_of_chain hc)))

theorem Inv.distinct (hi : Inv s) (hc : (s.pc p).chain? = some ch) : ch.Distinct := by
  have hne : ∀ j j' : Fin 3, j ≠ j' → ch.at j ≠ ch.at j' := by
    intro j j' hj heq
    have hslot := slots_of_chain (j := j) hc
    rw [heq] at hslot
    exact hj (congrArg Prod.snd (hi.exact.inj hslot (slots_of_chain hc)))
  exact ⟨hne 0 1 (by decide), hne 0 2 (by decide), hne 1 2 (by decide)⟩

/-- Two callers have two buffers. -/
theorem Inv.buf_ne (hi : Inv s) {c' : Call} (hpq : q ≠ p) (hc : (s.pc p).call? = some c)
    (hc' : (s.pc q).call? = some c') : c'.b ≠ c.b := by
  intro heq
  have h' := (hi.owner hc').1
  rw [heq, (hi.owner hc).1] at h'
  exact hpq (some.inj h').symm

/-- A head that a caller waits for is a descriptor in use. -/
theorem Inv.lt_of_flight (hi : Inv s) (h : i ∈ s.flight) : i < NUM := by
  obtain ⟨p, c, ch, hp, rfl, -⟩ := hi.flight.mp h
  exact (hi.inUse (Pc.chain?_of_posted? hp) (.inl rfl)).1

/-- A caller that has not posted its chain has its head nowhere. -/
theorem Inv.not_flight (hi : Inv s) (hc : (s.pc p).chain? = some ch)
    (hp : (s.pc p).posted? = none) : ch.i0 ∉ s.flight := by
  intro hm
  obtain ⟨q, c', ch', hq, heq, -⟩ := hi.flight.mp hm
  have hne : q ≠ p := by
    rintro rfl
    rw [hp] at hq
    cases hq
  exact hi.disjoint hne hc (Pc.chain?_of_posted? hq) (.inl rfl) (.inl heq.symm)

/-- Part of what is in flight, with one descriptor missing, leaves room in
a ring. -/
theorem Inv.room (hi : Inv s) {l : List Nat} (hl : l.Sublist s.flight) (hx : i < NUM)
    (hnot : i ∉ l) : l.length < NUM := by
  have hnodup : (i :: l).Nodup := nodup_cons.mpr ⟨hnot, hl.nodup hi.nodup⟩
  have hsub : i :: l ⊆ range NUM := by
    intro x hxm
    rcases mem_cons.mp hxm with rfl | hxm
    · exact mem_range.mpr hx
    · exact mem_range.mpr (hi.lt_of_flight (hl.subset hxm))
  have hlen := (hnodup.subperm hsub).length_le
  rw [length_cons, length_range] at hlen
  omega

/-! ### Frames -/

theorem Sys.Stored.congr {k : Nat} (h : s.Stored c ch k) (hops : s'.ops ch.i0 = s.ops ch.i0)
    (hdesc : ∀ i, ch.Has i → s'.pool.desc i = s.pool.desc i)
    (hinfo : s'.infoB ch.i0 = s.infoB ch.i0) : s'.Stored c ch k where
  header hk := hops.trans (h.header hk)
  head hk := (hdesc _ (.inl rfl)).trans (h.head hk)
  data hk := (hdesc _ (.inr (.inl rfl))).trans (h.data hk)
  status hk := (hdesc _ (.inr (.inr rfl))).trans (h.status hk)
  info hk := hinfo.trans (h.info hk)

/-- A caller without the lock is at most asleep on its buffer. -/
theorem Sys.Stage.asleep {k : Pc} (h : s.Stage k) (hn : ¬k.Holds)
    (hframe : ∀ {c ch}, k.chain? = some ch → s.Formatted c ch → s'.Formatted c ch) :
    s'.Stage k := by
  match k with
  | .out | .sleepFree _ => trivial
  | .sleepDone c ch => exact hframe rfl h
  | .alloc _ | .format _ _ _ | .test _ _ | .done _ _ => exact (hn trivial).elim

/-- The stages say nothing about the device's side. -/
theorem Sys.Stage.congr {k : Pc} (h : s.Stage k) (hops : s'.ops = s.ops)
    (hpool : s'.pool = s.pool) (hinfo : s'.infoB = s.infoB) (hdisk : s'.disk = s.disk)
    (hcell : s'.avail.cell s'.avail.wr = s.avail.cell s.avail.wr) : s'.Stage k := by
  have hst : ∀ {c ch n}, s.Stored c ch n → s'.Stored c ch n := fun h =>
    h.congr (by rw [hops]) (fun _ _ => by rw [hpool]) (by rw [hinfo])
  match k with
  | .out | .alloc _ | .sleepFree _ => trivial
  | .format c ch n =>
    obtain ⟨hn, hs, hd, hc⟩ := h
    constructor <;> grind
  | .test c ch | .sleepDone c ch => exact hst h
  | .done c ch => exact ⟨hst h.1, by rw [hdisk]; exact h.2⟩

theorem update_proj {β : Type} (f : Pc → β) {pc : Nat → Pc} {k : Pc} (h : f k = f (pc p)) (q : Nat) :
    f (update pc p k q) = f (pc q) := by
  by_cases hq : q = p
  · subst hq
    rw [update_self, h]
  · rw [update_of_ne hq]

/-! ### `vdisk_lock` -/

/-- While `p` holds the lock no other caller does. -/
theorem Inv.alone (hi : Inv s) (hp : (s.pc p).Holds) (hq : q ≠ p) : ¬(s.pc q).Holds := by
  intro h
  have hlock := (hi.lock p).mpr hp
  simp_all [(hi.lock q).mpr h]

theorem Inv.lock_take (hi : Inv s) (hfree : s.vdiskLock = none) {k : Pc} (hk : k.Holds) (q : Nat) :
    some (Holder.caller p) = some (.caller q) ↔ (update s.pc p k q).Holds := by
  by_cases hq : q = p
  · grind
  · rw [update_of_ne hq, ← hi.lock q, hfree]
    grind

theorem Inv.lock_drop (hi : Inv s) (hp : (s.pc p).Holds) {k : Pc} (hk : ¬k.Holds) (q : Nat) :
    (none : Option Holder) = some (.caller q) ↔ (update s.pc p k q).Holds := by
  refine ⟨fun h => (nomatch h), fun h => ?_⟩
  by_cases hq : q = p
  · grind
  · rw [update_of_ne hq] at h
    exact (hi.alone hp hq h).elim

theorem Inv.lock_keep (hi : Inv s) (hp : (s.pc p).Holds) {k : Pc} (hk : k.Holds) (q : Nat) :
    s.vdiskLock = some (.caller q) ↔ (update s.pc p k q).Holds := by
  rw [hi.lock q, ← iff_iff_eq.mpr (update_proj Pc.Holds (propext ⟨fun _ => hp, fun _ => hk⟩) q)]

/-! ## The steps of a caller -/

/-- A caller moves on with its chain. -/
theorem Inv.move (hi : Inv s) {k : Pc} {L : Option Holder}
    (howner : ∀ {c}, k.call? = some c →
      s.bufLock c.b = some p ∧ c.sector = sectorOf (s.blockno c.b))
    (hchain : k.chain? = (s.pc p).chain?) (hposted : k.posted? = (s.pc p).posted?)
    (hstage : s.Stage k) (hlock : ∀ q, L = some (.caller q) ↔ (update s.pc p k q).Holds) :
    Inv ({ s with vdiskLock := L }.setPc p k) := by
  refine { hi with lock := hlock, owner := ?_, exact := ?_, flight := ?_, stage := ?_ }
  · intro q c hq
    by_cases hqp : q = p
    · subst hqp
      rw [Sys.setPc_pc_self] at hq
      exact howner hq
    · rw [Sys.setPc_pc_of_ne _ _ hqp] at hq
      exact hi.owner hq
  · refine hi.exact.congr (fun x => ?_) fun _ => Iff.rfl
    show (update s.pc p k x.1).chain?.map _ = (s.pc x.1).chain?.map _
    rw [update_proj Pc.chain? hchain]
  · intro h
    refine hi.flight.trans ?_
    unfold Sys.Awaited
    simp only [Sys.setPc, update_proj Pc.posted? hposted]
  · intro q
    have hst : s.Stage (update s.pc p k q) := by
      by_cases hq : q = p
      · grind
      · rw [update_of_ne hq]
        exact hi.stage q
    exact hst.congr rfl rfl rfl rfl rfl

/-- The descriptors that are free change, nothing else. -/
theorem Inv.scrub (hi : Inv s) {P : Pool} (hfree : ∀ i, P.free i = s.pool.free i)
    (hdesc : ∀ i, s.pool.free i = false → P.desc i = s.pool.desc i) : Inv { s with pool := P } := by
  refine { hi with exact := ?_, stage := fun q => ?_ }
  · refine hi.exact.congr (fun _ => rfl) fun i => ?_
    show _ ∧ P.free i = false ↔ _
    rw [hfree]
    rfl
  · have hst : ∀ {c ch n}, (s.pc q).chain? = some ch → s.Stored c ch n →
        { s with pool := P }.Stored c ch n := fun hc h =>
      h.congr rfl (fun i hhas => hdesc i (hi.inUse hc hhas).2) rfl
    have hq := hi.stage q
    match hk : s.pc q with
    | .out | .alloc _ | .sleepFree _ => trivial
    | .format c ch n =>
      rw [hk] at hq hst
      exact ⟨hq.1, hst rfl hq.2.1, hq.2.2⟩
    | .test c ch | .sleepDone c ch =>
      rw [hk] at hq hst
      exact hst rfl hq
    | .done c ch =>
      rw [hk] at hq hst
      exact ⟨hst rfl hq.1, hq.2⟩

/-- `alloc3_desc` has taken a chain. -/
theorem Inv.allocated (hi : Inv s) (hp : s.pc p = .alloc c) {P : Pool} (hdist : ch.Distinct)
    (hdesc : P.desc = s.pool.desc) (hhas : ∀ i, ch.Has i → i < NUM ∧ s.pool.free i = true)
    (hfree : ∀ i, P.free i = false ↔ ch.Has i ∨ s.pool.free i = false) :
    Inv ({ s with pool := P }.setPc p (.format c ch 0)) := by
  have hhold : (s.pc p).Holds := by
    rw [hp]
    trivial
  refine { hi with lock := ?_, owner := ?_, exact := ?_, flight := ?_, stage := ?_ }
  · exact hi.lock_keep hhold trivial
  · intro q c' hq
    exact hi.owner ((update_proj Pc.call? (by rw [hp]; rfl) q).symm.trans hq)
  · have hslot : ∀ {x i}, x.1 = p → Sys.slots ({ s with pool := P }.setPc p (.format c ch 0)) x = some i →
        ch.at x.2 = i := by
      rintro x i rfl hx
      obtain ⟨ch', hc', rfl⟩ := slots_inv hx
      rw [Sys.setPc_pc_self] at hc'
      rw [some.inj hc']
    refine hi.exact.assignAll (S := (·.1 = p)) (fun x hx => ?_) (fun x hx => ?_) (fun hx hs hu => ?_)
      (fun hx hy hi hj => ?_) fun i => ?_
    · show (s.pc x.1).chain?.map _ = none
      rw [hx, hp]
      rfl
    · show (update s.pc p _ x.1).chain?.map _ = _
      rw [update_of_ne hx]
      rfl
    · have hf := (hhas _ (Chain.has_iff.mpr ⟨_, hslot hx hs⟩)).2
      rw [hu.2] at hf
      cases hf
    · exact Prod.ext (hx.trans hy.symm) (hdist.at_inj ((hslot hx hi).trans (hslot hy hj).symm))
    · have hself : ((Sys.setPc { s with pool := P } p (.format c ch 0)).pc p).chain? = some ch := by
        rw [Sys.setPc_pc_self]
        rfl
      constructor
      · rintro ⟨hlt, hf⟩
        rcases (hfree i).mp hf with hh | hf
        · obtain ⟨j, rfl⟩ := Chain.has_iff.mp hh
          exact .inl ⟨(p, j), rfl, slots_of_chain hself⟩
        · exact .inr ⟨hlt, hf⟩
      · rintro (⟨x, hx, hs⟩ | ⟨hlt, hf⟩)
        · have hh := Chain.has_iff.mpr ⟨_, hslot hx hs⟩
          exact ⟨(hhas i hh).1, (hfree i).mpr (.inl hh)⟩
        · exact ⟨hlt, (hfree i).mpr (.inr hf)⟩
  · intro h
    refine hi.flight.trans ?_
    unfold Sys.Awaited
    simp only [Sys.setPc, update_proj Pc.posted? (show (Pc.format c ch 0).posted? = (s.pc p).posted? by
      rw [hp]; rfl)]
  · intro q
    by_cases hq : q = p
    · subst hq
      rw [Sys.setPc_pc_self]
      exact ⟨by omega, ⟨by omega, by omega, by omega, by omega, by omega⟩, by omega, by omega⟩
    · rw [Sys.setPc_pc_of_ne _ _ hq]
      refine (hi.stage q).asleep (hi.alone hhold hq) fun _ h => ?_
      exact h.congr rfl (fun i _ => congrFun hdesc i) rfl

/-! ### Formatting -/

section fmt

variable {k : Nat}

theorem fmt_ops (hi : i ≠ ch.i0) : (s.fmt c ch k).ops i = s.ops i := by
  unfold Sys.fmt
  split <;> simp_all

theorem fmt_infoB (hi : i ≠ ch.i0) : (s.fmt c ch k).infoB i = s.infoB i := by
  unfold Sys.fmt
  split <;> simp_all

theorem fmt_status (hi : i ≠ ch.i0) : (s.fmt c ch k).status i = s.status i := by
  unfold Sys.fmt
  split <;> simp_all

theorem fmt_disk (hi : i ≠ c.b) : (s.fmt c ch k).disk i = s.disk i := by
  unfold Sys.fmt
  split <;> simp_all

theorem fmt_desc (hi : ¬ch.Has i) : (s.fmt c ch k).pool.desc i = s.pool.desc i := by
  unfold Sys.fmt
  split
  case h_2 => exact update_of_ne (fun h => hi (.inl h)) ..
  case h_3 => exact update_of_ne (fun h => hi (.inr (.inl h))) ..
  case h_4 => exact update_of_ne (fun h => hi (.inr (.inr h))) ..
  all_goals rfl

/-- What a group of stores leaves as it is. -/
theorem fmt_rest (s : Sys) (c : Call) (ch : Chain) (k : Nat) : (s.fmt c ch k).pool.free = s.pool.free ∧ (s.fmt c ch k).used = s.used ∧
    (s.fmt c ch k).vdiskLock = s.vdiskLock ∧ (s.fmt c ch k).taken = s.taken ∧
    (s.fmt c ch k).ready = s.ready ∧ (s.fmt c ch k).writing = s.writing ∧
    (s.fmt c ch k).blockno = s.blockno ∧ (s.fmt c ch k).bufLock = s.bufLock ∧
    (s.fmt c ch k).pc = s.pc ∧ (s.fmt c ch k).panic = s.panic := by
  unfold Sys.fmt
  split <;> exact ⟨rfl, rfl, rfl, rfl, rfl, rfl, rfl, rfl, rfl, rfl⟩

theorem fmt_avail (s : Sys) (c : Call) (ch : Chain) (k : Nat) :
    (s.fmt c ch k).avail = s.avail ∨ (s.fmt c ch k).avail = s.avail.store ch.i0 := by
  unfold Sys.fmt
  split
  case h_6 => exact .inr rfl
  all_goals exact .inl rfl

/-- A group of stores keeps the groups before it. -/
theorem Sys.Stored.fmt (h : s.Stored c ch k) (hd : ch.Distinct) (hk : k < 6) :
    (s.fmt c ch k).Stored c ch (k + 1) := by
  obtain ⟨h01, h02, h12⟩ := hd
  match k with
  | 0 => exact ⟨fun _ => update_self .., by omega, by omega, by omega, by omega⟩
  | 1 => exact ⟨fun _ => h.header (by omega), fun _ => update_self .., by omega, by omega,
      by omega⟩
  | 2 =>
    refine ⟨fun _ => h.header (by omega), fun _ => ?_, fun _ => update_self .., by omega,
      by omega⟩
    exact (update_of_ne h01 ..).trans (h.head (by omega))
  | 3 =>
    refine ⟨fun _ => h.header (by omega), fun _ => ?_, fun _ => ?_, fun _ => update_self ..,
      by omega⟩
    · exact (update_of_ne h02 ..).trans (h.head (by omega))
    · exact (update_of_ne h12 ..).trans (h.data (by omega))
  | 4 => exact ⟨fun _ => h.header (by omega), fun _ => h.head (by omega), fun _ => h.data (by omega),
      fun _ => h.status (by omega), fun _ => update_self ..⟩
  | 5 => exact ⟨fun _ => h.header (by omega), fun _ => h.head (by omega), fun _ => h.data (by omega),
      fun _ => h.status (by omega), fun _ => h.info (by omega)⟩

end fmt

/-- The avail slot that is stored next holds nothing the device has still
to read. -/
theorem Inv.avail_room (hi : Inv s) (hc : (s.pc p).chain? = some ch)
    (hp : (s.pc p).posted? = none) : s.avail.count < NUM := by
  rw [← RingQueue.length_queue]
  refine hi.room (sublist_append_left ..) (hi.inUse hc (.inl rfl)).1 fun hm => ?_
  exact hi.not_flight hc hp (mem_append_left _ hm)

theorem NUM_dvd : NUM ∣ 2 ^ 16 := ⟨2 ^ 13, by decide⟩

theorem Inv.fmt {k : Nat} (hi : Inv s) (hp : s.pc p = .format c ch k) (hk : k < 6) :
    Inv ((s.fmt c ch k).setPc p (.format c ch (k + 1))) := by
  have hchain : (s.pc p).chain? = some ch := by rw [hp]; rfl
  have hcall : (s.pc p).call? = some c := by rw [hp]; rfl
  have hposted : (s.pc p).posted? = none := by rw [hp]; rfl
  have hhold : (s.pc p).Holds := by rw [hp]; trivial
  have hroom := hi.avail_room hchain hposted
  obtain ⟨hfree, hused, hlock, htaken, hready, hwriting, hblockno, hbufLock, hpc, hpanic⟩ :=
    fmt_rest s c ch k
  have hqueue : (s.fmt c ch k).avail.queue = s.avail.queue := by
    rcases fmt_avail s c ch k with h | h <;> rw [h]
    exact RingQueue.queue_store hi.avail_wf NUM_dvd hroom _
  have hflight : ((s.fmt c ch k).setPc p (.format c ch (k + 1))).flight = s.flight := by
    show (s.fmt c ch k).flight = _
    unfold Sys.flight
    grind
  have hdisk : ∀ {q c' ch'}, (s.pc q).posted? = some (c', ch') →
      (s.fmt c ch k).disk c'.b = s.disk c'.b := by
    intro q c' ch' hq
    refine fmt_disk (hi.buf_ne (fun hqp => ?_) hcall (Pc.call?_of_posted? hq))
    rw [hqp, hposted] at hq
    cases hq
  constructor
  case avail_wf =>
    show (s.fmt c ch k).avail.Wf
    rcases fmt_avail s c ch k with h | h <;> rw [h]
    · exact hi.avail_wf
    · exact ⟨hi.avail_wf.rd_lt, hi.avail_wf.wr_lt⟩
  case used_wf =>
    show (s.fmt c ch k).used.Wf
    rw [hused]
    exact hi.used_wf
  case lock =>
    intro q
    show (s.fmt c ch k).vdiskLock = _ ↔ (update (s.fmt c ch k).pc p _ q).Holds
    rw [hlock, hpc]
    exact hi.lock_keep hhold (k := .format c ch (k + 1)) trivial q
  case owner =>
    intro q c' hq
    show (s.fmt c ch k).bufLock _ = _ ∧ _ = sectorOf ((s.fmt c ch k).blockno _)
    replace hq : (update (s.fmt c ch k).pc p (.format c ch (k + 1)) q).call? = some c' := hq
    rw [hpc, update_proj Pc.call? (by rw [hp]; rfl)] at hq
    rw [hbufLock, hblockno]
    exact hi.owner hq
  case exact =>
    refine hi.exact.congr (fun x => ?_) fun i => ?_
    · show (update (s.fmt c ch k).pc p _ x.1).chain?.map _ = (s.pc x.1).chain?.map _
      rw [hpc, update_proj Pc.chain? (by rw [hp]; rfl)]
    · show _ ∧ (s.fmt c ch k).pool.free i = false ↔ _
      rw [hfree]
      rfl
  case nodup =>
    rw [hflight]
    exact hi.nodup
  case flight =>
    intro h
    rw [hflight, hi.flight]
    refine exists_congr fun q => exists_congr fun c' => exists_congr fun ch' => ?_
    show _ ↔ (update (s.fmt c ch k).pc p _ q).posted? = _ ∧ _ ∧ (s.fmt c ch k).disk _ = _
    rw [hpc, update_proj Pc.posted? (by rw [hp]; rfl)]
    grind
  case stage =>
    intro q
    by_cases hq : q = p
    · subst hq
      rw [Sys.setPc_pc_self]
      have hst := hi.stage q
      rw [hp] at hst
      obtain ⟨-, hst, hdisk, -⟩ := hst
      have hst' := hst.fmt (hi.distinct hchain) hk
      refine ⟨by omega, hst'.congr rfl (fun _ _ => rfl) rfl, fun h4 => ?_, fun h5 => ?_⟩
      · show (s.fmt c ch k).disk c.b = true
        rcases (show k = 4 ∨ k = 5 by omega) with rfl | rfl
        · exact update_self ..
        · exact hdisk (by omega)
      · obtain rfl : k = 5 := by omega
        exact RingQueue.cell_store_self ..
    · rw [Sys.setPc_pc_of_ne _ _ hq, hpc]
      refine (hi.stage q).asleep (hi.alone hhold hq) fun hc' h => ?_
      have hnot := fun i => hi.disjoint (i := i) (Ne.symm hq) hc' hchain
      have h0 : _ ≠ ch.i0 := fun heq => hnot _ (.inl rfl) (.inl heq)
      exact h.congr (fmt_ops h0) (fun i hhas => fmt_desc (hnot i hhas)) (fmt_infoB h0)
  case statusZero =>
    intro h hm
    replace hm : h ∈ (s.fmt c ch k).ready ++ ((s.fmt c ch k).writing.toList ++
      (s.fmt c ch k).used.queue) := hm
    rw [hready, hwriting, hused] at hm
    show (s.fmt c ch k).status h = 0
    rw [fmt_status, hi.statusZero hm]
    rintro rfl
    exact hi.not_flight hchain hposted (mem_append_right _ (mem_append_right _ hm))
  case writing =>
    intro h hw
    replace hw : (s.fmt c ch k).writing = some h := hw
    rw [hwriting] at hw
    show (s.fmt c ch k).used.cell (s.fmt c ch k).used.wr = h
    rw [hused]
    exact hi.writing hw
  case panic => exact hpanic.trans hi.panic

/-! ### Posting and freeing -/

theorem Inv.formatted (hi : Inv s) (hp : (s.pc p).posted? = some (c, ch)) : s.Formatted c ch := by
  have hst := hi.stage p
  match hk : s.pc p with
  | .out | .alloc _ | .sleepFree _ | .format _ _ _ =>
    rw [hk] at hp
    cases hp
  | .test c' ch' | .sleepDone c' ch' =>
    rw [hk] at hp hst
    cases hp
    exact hst
  | .done c' ch' =>
    rw [hk] at hp hst
    cases hp
    exact hst.1

/-- `avail->idx += 1`. -/
theorem Inv.posted (hi : Inv s) (hp : s.pc p = .format c ch 6) :
    Inv ({ s with avail := s.avail.publish }.setPc p (.test c ch)) := by
  have hchain : (s.pc p).chain? = some ch := by rw [hp]; rfl
  have hposted : (s.pc p).posted? = none := by rw [hp]; rfl
  have hhold : (s.pc p).Holds := by rw [hp]; trivial
  have hroom : s.avail.count < 8 := hi.avail_room hchain hposted
  have hst := hi.stage p
  rw [hp] at hst
  obtain ⟨-, hstored, hdisk, hcell⟩ := hst
  have hnot := hi.not_flight hchain hposted
  have hqueue : s.avail.publish.queue = s.avail.queue ++ [ch.i0] := by
    rw [RingQueue.queue_publish hi.avail_wf NUM_dvd (by omega), hcell rfl]
  have hperm : ({ s with avail := s.avail.publish }.setPc p (.test c ch)).flight.Perm
      (ch.i0 :: s.flight) := by
    show (s.avail.publish.queue ++ _).Perm _
    rw [hqueue, append_assoc]
    exact perm_middle
  refine { hi with avail_wf := ?_, lock := ?_, owner := ?_, exact := ?_, nodup := ?_, flight := ?_, stage := ?_ }
  · exact RingQueue.publish_wf hi.avail_wf
  · exact hi.lock_keep hhold (k := .test c ch) trivial
  · intro q c' hq
    exact hi.owner ((update_proj Pc.call? (by rw [hp]; rfl) q).symm.trans hq)
  · refine hi.exact.congr (fun x => ?_) fun _ => Iff.rfl
    show (update s.pc p (.test c ch) x.1).chain?.map _ = (s.pc x.1).chain?.map _
    rw [update_proj Pc.chain? (by rw [hp]; rfl)]
  · exact hperm.nodup_iff.mpr (nodup_cons.mpr ⟨hnot, hi.nodup⟩)
  · intro h
    rw [hperm.mem_iff, mem_cons, hi.flight]
    constructor
    · rintro (rfl | ⟨q, c', ch', hq, hh, hd⟩)
      · exact ⟨p, c, ch, by rw [Sys.setPc_pc_self]; rfl, rfl, hdisk (by omega)⟩
      · have hqp : q ≠ p := by grind
        exact ⟨q, c', ch', by rw [Sys.setPc_pc_of_ne _ _ hqp]; exact hq, hh, hd⟩
    · rintro ⟨q, c', ch', hq, hh, hd⟩
      by_cases hqp : q = p
      · subst hqp
        rw [Sys.setPc_pc_self] at hq
        cases hq
        exact .inl hh.symm
      · rw [Sys.setPc_pc_of_ne _ _ hqp] at hq
        exact .inr ⟨q, c', ch', hq, hh, hd⟩
  · intro q
    by_cases hq : q = p
    · subst hq
      rw [Sys.setPc_pc_self]
      exact ⟨fun _ => hstored.header (by omega), fun _ => hstored.head (by omega),
        fun _ => hstored.data (by omega), fun _ => hstored.status (by omega),
        fun _ => hstored.info (by omega)⟩
    · rw [Sys.setPc_pc_of_ne _ _ hq]
      exact (hi.stage q).asleep (hi.alone hhold hq) fun _ h => h.congr rfl (fun _ _ => rfl) rfl

/-- `free_chain` frees the three descriptors of a formatted chain, without
a panic. -/
theorem freeChain_formatted (hf : s.Formatted c ch) (hd : ch.Distinct)
    (huse : ∀ i, ch.Has i → s.InUse i) :
    ∃ P, freeChain (NUM + 1) s.pool ch.i0 = .ok P ∧
      (∀ i, ¬ch.Has i → P.desc i = s.pool.desc i) ∧
      ∀ i, P.free i = false ↔ s.pool.free i = false ∧ ¬ch.Has i := by
  obtain ⟨h01, h02, h12⟩ := hd
  have hhead := hf.head (by omega)
  have hdata := hf.data (by omega)
  have hstatus := hf.status (by omega)
  have hfirst : (headDesc ch).flags &&& VRING_DESC_F_NEXT ≠ 0 := show 1 &&& 1 ≠ 0 by decide
  have hlast : ¬(statusDesc ch).flags &&& VRING_DESC_F_NEXT ≠ 0 := show ¬2 &&& 1 ≠ 0 by decide
  have hnext : (dataDesc c ch).flags &&& VRING_DESC_F_NEXT ≠ 0 := by
    show ((if c.write then 0 else 2) ||| 1) &&& 1 ≠ 0
    cases c.write <;> decide
  obtain ⟨P0, hd0, hf0, h0⟩ := freeChain_succ 8 (huse _ (.inl rfl)).1 (huse _ (.inl rfl)).2
  rw [hhead, if_pos hfirst] at h0
  obtain ⟨P1, hd1, hf1, h1⟩ := freeChain_succ (P := P0) 7 (huse ch.i1 (.inr (.inl rfl))).1
    (by rw [hf0, if_neg h01.symm]; exact (huse _ (.inr (.inl rfl))).2)
  rw [hd0 _ h01.symm, hdata, if_pos hnext] at h1
  obtain ⟨P2, hd2, hf2, h2⟩ := freeChain_succ (P := P1) 6 (huse ch.i2 (.inr (.inr rfl))).1
    (by rw [hf1, if_neg h12.symm, hf0, if_neg h02.symm]; exact (huse _ (.inr (.inr rfl))).2)
  rw [hd1 _ h12.symm, hd0 _ h02.symm, hstatus, if_neg hlast] at h2
  refine ⟨P2, h0.trans (h1.trans h2), fun i hn => ?_, fun i => ?_⟩
  · rw [hd2 i fun h => hn (.inr (.inr h)), hd1 i fun h => hn (.inr (.inl h)),
      hd0 i fun h => hn (.inl h)]
  · rw [hf2, hf1, hf0]
    unfold Chain.Has
    grind

/-- The end of `virtio_disk_rw`. -/
theorem Inv.freed (hi : Inv s) (hp : s.pc p = .done c ch) {P : Pool}
    (hdesc : ∀ i, ¬ch.Has i → P.desc i = s.pool.desc i)
    (hfree : ∀ i, P.free i = false ↔ s.pool.free i = false ∧ ¬ch.Has i) :
    Inv ({ s with infoB := update s.infoB ch.i0 none
                  pool := P, vdiskLock := none }.setPc p .out) := by
  have hchain : (s.pc p).chain? = some ch := by rw [hp]; rfl
  have hhold : (s.pc p).Holds := by rw [hp]; trivial
  have hst := hi.stage p
  rw [hp] at hst
  refine { hi with lock := ?_, owner := ?_, exact := ?_, flight := ?_, stage := ?_ }
  · exact hi.lock_drop hhold (k := .out) (fun h => h.elim)
  · intro q c' hq
    have hqp : q ≠ p := by
      rintro rfl
      rw [Sys.setPc_pc_self] at hq
      cases hq
    rw [Sys.setPc_pc_of_ne _ _ hqp] at hq
    exact hi.owner hq
  · refine hi.exact.release (S := (·.1 = p)) (fun x hx => ?_) (fun x hx => ?_) fun i => ?_
    · show (update s.pc p .out x.1).chain?.map _ = none
      rw [hx, update_self]
      rfl
    · show (update s.pc p .out x.1).chain?.map _ = _
      rw [update_of_ne hx]
      rfl
    · show i < NUM ∧ P.free i = false ↔ _
      rw [hfree, ← and_assoc]
      refine and_congr_right fun _ => ?_
      rw [Chain.has_iff, not_exists]
      constructor
      · simp_all [slots_of_chain hchain]
      · intro hn j heq
        exact hn (p, j) rfl (by rw [slots_of_chain hchain, heq])
  · intro h
    refine hi.flight.trans (exists_congr fun q => exists_congr fun c' => exists_congr fun ch' => ?_)
    by_cases hqp : q = p
    · subst hqp
      rw [Sys.setPc_pc_self, hp]
      constructor
      · rintro ⟨heq, -, hd⟩
        cases heq
        rw [hst.2] at hd
        cases hd
      · rintro ⟨heq, -⟩
        cases heq
    · rw [Sys.setPc_pc_of_ne _ _ hqp]
      rfl
  · intro q
    by_cases hq : q = p
    · subst hq
      rw [Sys.setPc_pc_self]
      trivial
    · rw [Sys.setPc_pc_of_ne _ _ hq]
      refine (hi.stage q).asleep (hi.alone hhold hq) fun hc' h => ?_
      have hnot := fun i => hi.disjoint (i := i) (Ne.symm hq) hc' hchain
      exact h.congr rfl (fun i hhas => hdesc i (hnot i hhas))
        (update_of_ne (fun heq => hnot _ (.inl rfl) (.inl heq)) ..)

/-! ## The steps of the device -/

/-- The device moves heads along, and changes what it alone writes. -/
theorem Inv.device (hi : Inv s) {av us : RingQueue Nat NUM (2 ^ 16)} {tk rd : List Nat}
    {w : Option Nat} {st : Nat → Nat} (hav : av.Wf) (hus : us.Wf)
    (hcell : av.cell av.wr = s.avail.cell s.avail.wr)
    (hperm : (av.queue ++ (tk ++ (rd ++ (w.toList ++ us.queue)))).Perm s.flight)
    (hst : ∀ {h}, h ∈ rd ++ (w.toList ++ us.queue) → st h = 0)
    (hw : ∀ {h}, w = some h → us.cell us.wr = h) :
    Inv { s with avail := av, used := us, taken := tk, ready := rd, writing := w, status := st } where
  avail_wf := hav
  used_wf := hus
  lock := hi.lock
  owner := hi.owner
  exact := hi.exact
  nodup := hperm.nodup_iff.mpr hi.nodup
  flight := hperm.mem_iff.trans hi.flight
  stage p := (hi.stage p).congr rfl rfl rfl rfl hcell
  statusZero := hst
  writing := hw
  panic := hi.panic

theorem Inv.take (hi : Inv s) (hne : s.avail.rd ≠ s.avail.wr) :
    s.avail.queue = s.avail.cell s.avail.rd :: s.avail.take.queue :=
  RingQueue.queue_take hi.avail_wf NUM_dvd fun h0 => hne ((RingQueue.count_eq_zero hi.avail_wf).mp h0)

theorem Inv.take_inv (hi : Inv s) (hne : s.avail.rd ≠ s.avail.wr) :
    Inv { s with taken := s.avail.cell s.avail.rd :: s.taken, avail := s.avail.take } := by
  refine hi.device (RingQueue.take_wf hi.avail_wf) hi.used_wf rfl ?_ hi.statusZero hi.writing
  unfold Sys.flight
  rw [hi.take hne, cons_append, cons_append]
  exact perm_middle

/-- The device reads the chain of a posted head as the driver has formatted
it. -/
theorem Sys.Formatted.chainAt (h : s.Formatted c ch) :
    s.chainAt ch.i0 = (headDesc ch, dataDesc c ch, statusDesc ch) := by
  unfold Sys.chainAt
  rw [h.head (by omega)]
  show (_, s.pool.desc ch.i1, s.pool.desc (s.pool.desc ch.i1).next) = _
  rw [h.data (by omega)]
  show (_, _, s.pool.desc ch.i2) = _
  rw [h.status (by omega)]

theorem Inv.storeStatus (hi : Inv s) (hm : i ∈ s.flight) :
    s.storeStatus (s.chainAt i) = { s with status := update s.status i 0 } := by
  obtain ⟨p, c, ch, hp, rfl, -⟩ := hi.flight.mp hm
  rw [(hi.formatted hp).chainAt]
  rfl

theorem mem_flight_taken (h : i ∈ s.taken) : i ∈ s.flight :=
  mem_append_right _ (mem_append_left _ h)

theorem Inv.status_inv (hi : Inv s) (hm : i ∈ s.taken) :
    Inv { s.storeStatus (s.chainAt i) with taken := s.taken.erase i, ready := i :: s.ready } := by
  rw [hi.storeStatus (mem_flight_taken hm)]
  refine hi.device hi.avail_wf hi.used_wf rfl ?_ ?_ hi.writing
  · refine List.Perm.append_left _ ?_
    grind
  · intro h hh
    show update s.status i 0 h = 0
    by_cases heq : h = i
    · rw [heq, update_self]
    · rw [update_of_ne heq]
      rcases mem_cons.mp hh with h | h
      · exact (heq h).elim
      · exact hi.statusZero h

/-- While the device has a head to hand over, the used slot that is stored
next holds nothing the driver has still to read. -/
theorem Inv.used_room (hi : Inv s) (hm : i ∈ s.ready ++ s.writing.toList) :
    s.used.count < NUM := by
  have hflight : s.flight =
      (s.avail.queue ++ (s.taken ++ (s.ready ++ s.writing.toList))) ++ s.used.queue := by
    simp only [Sys.flight, append_assoc]
  have hmem : i ∈ s.avail.queue ++ (s.taken ++ (s.ready ++ s.writing.toList)) :=
    mem_append_right _ (mem_append_right _ hm)
  rw [← RingQueue.length_queue]
  refine hi.room (i := i) ?_ (hi.lt_of_flight ?_) fun hmq => ?_
  · grind
  · grind
  · have hnodup := hi.nodup
    grind

theorem Inv.usedSlot_inv (hi : Inv s) (hm : i ∈ s.ready) (hw : s.writing = none) :
    Inv { s with used := s.used.store i, ready := s.ready.erase i, writing := some i } := by
  have hqueue := RingQueue.queue_store hi.used_wf NUM_dvd (hi.used_room (mem_append_left _ hm)) i
  have hperm : (s.ready.erase i ++ ((some i).toList ++ (s.used.store i).queue)).Perm
      (s.ready ++ (s.writing.toList ++ s.used.queue)) := by
    rw [hqueue, hw]
    show (s.ready.erase i ++ i :: s.used.queue).Perm (s.ready ++ s.used.queue)
    exact perm_middle.trans ((perm_cons_erase hm).symm.append_right _)
  refine hi.device hi.avail_wf ⟨hi.used_wf.rd_lt, hi.used_wf.wr_lt⟩ rfl ?_ ?_ ?_
  · exact (hperm.append_left _).append_left _
  · exact fun h => hi.statusZero (hperm.mem_iff.mp h)
  · intro h heq
    rw [← some.inj heq]
    exact RingQueue.cell_store_self ..

theorem Inv.usedIdx_inv (hi : Inv s) (hw : s.writing = some i) :
    Inv { s with used := s.used.publish, writing := none } := by
  have hroom : s.used.count < 8 := hi.used_room (i := i) (by rw [hw]; simp)
  have hqueue : s.used.publish.queue = s.used.queue ++ [i] := by
    rw [RingQueue.queue_publish hi.used_wf NUM_dvd (by omega), hi.writing hw]
  have hperm : ((none : Option Nat).toList ++ s.used.publish.queue).Perm
      (s.writing.toList ++ s.used.queue) := by
    rw [hqueue, hw]
    show (s.used.queue ++ [i]).Perm ([i] ++ s.used.queue)
    exact perm_append_comm
  refine hi.device hi.avail_wf (RingQueue.publish_wf hi.used_wf) rfl ?_ ?_ fun h => nomatch h
  · exact ((hperm.append_left _).append_left _).append_left _
  · exact fun h => hi.statusZero ((hperm.append_left _).mem_iff.mp h)

/-! ## The interrupt handler -/

/-- What a round of `virtio_disk_intr` finds: the head of a chain that a
caller waits for, with status 0 and the caller's buffer. -/
theorem Inv.completion (hi : Inv s) (hne : s.used.rd ≠ s.used.wr) :
    s.used.queue = s.used.cell s.used.rd :: s.used.take.queue ∧
    s.status (s.used.cell s.used.rd) = 0 ∧
    ∃ p c ch, (s.pc p).posted? = some (c, ch) ∧ ch.i0 = s.used.cell s.used.rd ∧
      s.disk c.b = true ∧ s.infoB ch.i0 = some c.b := by
  have hqueue : s.used.queue = s.used.cell s.used.rd :: s.used.take.queue :=
    RingQueue.queue_take hi.used_wf NUM_dvd fun h0 => hne ((RingQueue.count_eq_zero hi.used_wf).mp h0)
  have hmem : s.used.cell s.used.rd ∈ s.ready ++ (s.writing.toList ++ s.used.queue) := by
    rw [hqueue]
    simp
  obtain ⟨p, c, ch, hp, h0, hd⟩ := hi.flight.mp
    (mem_append_right _ (mem_append_right _ hmem))
  exact ⟨hqueue, hi.statusZero hmem, p, c, ch, hp, h0, hd, (hi.formatted hp).info (by omega)⟩

theorem Inv.completed (hi : Inv s) (hlock : s.vdiskLock = some .intr)
    (hqueue : s.used.queue = i :: s.used.take.queue) (hp : (s.pc p).posted? = some (c, ch))
    (h0 : ch.i0 = i) :
    Inv { s with disk := update s.disk c.b false, used := s.used.take } ∧
      i ∉ Sys.flight { s with disk := update s.disk c.b false, used := s.used.take } := by
  have hasleep : ∀ q, ¬(s.pc q).Holds := by
    intro q hq
    rw [(hi.lock q).mpr hq] at hlock
    cases hlock
  have hperm : s.flight.Perm (i :: Sys.flight { s with
      disk := update s.disk c.b false, used := s.used.take }) := by
    unfold Sys.flight
    rw [hqueue, ← append_assoc, ← append_assoc, ← append_assoc]
    refine perm_middle.trans (List.Perm.cons _ ?_)
    simp only [append_assoc]
    exact List.Perm.refl _
  have hnodup := nodup_cons.mp (hperm.nodup_iff.mp hi.nodup)
  refine ⟨{ hi with used_wf := ?_, nodup := hnodup.2, flight := ?_, stage := ?_, statusZero := ?_,
                    writing := hi.writing }, hnodup.1⟩
  · exact RingQueue.take_wf hi.used_wf
  · intro h
    constructor
    · intro hm
      obtain ⟨q, c', ch', hq, hh, hd⟩ := hi.flight.mp (hperm.mem_iff.mpr (mem_cons_of_mem _ hm))
      refine ⟨q, c', ch', hq, hh, ?_⟩
      have hqp : q ≠ p := by grind
      exact (update_of_ne (hi.buf_ne hqp (Pc.call?_of_posted? hp)
        (Pc.call?_of_posted? hq)) ..).trans hd
    · rintro ⟨q, c', ch', hq, hh, hd⟩
      have hqp : q ≠ p := by grind
      have hne : h ≠ i := by
        rintro rfl
        exact hi.disjoint hqp (Pc.chain?_of_posted? hp) (Pc.chain?_of_posted? hq) (.inl rfl)
          (.inl (h0.trans hh.symm))
      have hd' : s.disk c'.b = true := (update_of_ne (hi.buf_ne hqp
        (Pc.call?_of_posted? hp) (Pc.call?_of_posted? hq)) ..).symm.trans hd
      exact (mem_cons.mp (hperm.mem_iff.mp (hi.flight.mpr ⟨q, c', ch', hq, hh, hd'⟩))).resolve_left hne
  · exact fun q => (hi.stage q).asleep (hasleep q) fun _ h => h.congr rfl (fun _ _ => rfl) rfl
  · intro h hm
    refine hi.statusZero ?_
    grind

/-! ## Every step -/

/-- The rings keep what is not consumed, and no flag is cleared. -/
structure Kept (s s' : Sys) : Prop where
  avail : s.avail.queue <+: s'.avail.queue
  used : s.used.queue <+: s'.used.queue
  disk : ∀ b, s.disk b = true → s'.disk b = true

theorem prefix_of_queue_eq {l l' : List Nat} (h : l' = l) : l <+: l' :=
  ⟨[], (append_nil l).trans h.symm⟩

theorem Kept.of_eq (ha : s'.avail = s.avail) (hu : s'.used = s.used) (hd : s'.disk = s.disk) :
    Kept s s' := by
  refine ⟨?_, ?_, fun b h => ?_⟩
  · exact prefix_of_queue_eq (congrArg _ ha)
  · exact prefix_of_queue_eq (congrArg _ hu)
  · rw [hd]
    exact h

theorem Inv.fmt_kept {k : Nat} (hi : Inv s) (hp : s.pc p = .format c ch k) {k' : Pc} :
    Kept s ((s.fmt c ch k).setPc p k') := by
  have hchain : (s.pc p).chain? = some ch := by rw [hp]; rfl
  have hroom := hi.avail_room hchain (by rw [hp]; rfl)
  refine ⟨?_, ?_, fun b hb => ?_⟩
  · refine prefix_of_queue_eq ?_
    show (s.fmt c ch k).avail.queue = _
    rcases fmt_avail s c ch k with h | h
    · rw [h]
    · rw [h, RingQueue.queue_store hi.avail_wf NUM_dvd hroom]
  · exact prefix_of_queue_eq (congrArg _ (fmt_rest s c ch k).2.1)
  · show (s.fmt c ch k).disk b = true
    unfold Sys.fmt
    split
    case h_5 =>
      grind
    all_goals exact hb

theorem Inv.rw (hi : Inv s) (h : rwStep s p = some s') : Inv s' ∧ Kept s s' := by
  have hholds : ∀ {k}, s.pc p = k → k.Holds → (s.pc p).Holds := fun hk h => by rwa [hk]
  have hcall : ∀ {k : Pc}, k.call? = (s.pc p).call? → ∀ {c}, k.call? = some c →
      s.bufLock c.b = some p ∧ c.sector = sectorOf (s.blockno c.b) := fun hk _ hc =>
    hi.owner (hk.symm.trans hc)
  have hst := hi.stage p
  unfold rwStep at h
  split at h
  case h_1 => cases h
  case h_2 c hp =>
    rcases alloc3Desc_spec s.pool with ⟨ch, Q, hal, hdist, hdesc, hhas, hfree⟩ | ⟨Q, hal, hfree, hdesc⟩
    all_goals
      rw [hal] at h
      cases h
      refine ⟨?_, Kept.of_eq rfl rfl rfl⟩
    · exact hi.allocated hp hdist hdesc hhas hfree
    · have hi' := hi.scrub hfree hdesc
      refine hi'.move (k := .sleepFree c) (hcall (by rw [hp]; rfl)) ?_ ?_ trivial
        (hi'.lock_drop (hholds hp trivial) fun h => h)
      all_goals
        rw [show ({ s with pool := Q } : Sys).pc p = .alloc c from hp]
        rfl
  case h_3 c hp =>
    split at h
    case isTrue hl =>
      cases h
      refine ⟨hi.move (hcall (by rw [hp]; rfl)) ?_ ?_ trivial (hi.lock_take hl trivial), Kept.of_eq rfl rfl rfl⟩
      all_goals
        rw [hp]
        rfl
    case isFalse => cases h
  case h_4 c ch k hp =>
    split at h
    case isTrue hk =>
      cases h
      exact ⟨hi.fmt hp hk, hi.fmt_kept hp⟩
    case isFalse hk =>
      cases h
      rw [hp] at hst
      obtain rfl : k = 6 := by
        have := hst.1
        omega
      refine ⟨hi.posted hp, ?_, prefix_rfl, fun _ h => h⟩
      have hchain : (s.pc p).chain? = some ch := by rw [hp]; rfl
      have hroom : s.avail.count < 8 := hi.avail_room hchain (by rw [hp]; rfl)
      exact ⟨_, (RingQueue.queue_publish hi.avail_wf NUM_dvd (by omega)).symm⟩
  case h_5 c ch hp =>
    rw [hp] at hst
    split at h
    case isTrue hd =>
      cases h
      refine ⟨hi.move (hcall (by rw [hp]; rfl)) ?_ ?_ hst (hi.lock_drop (hholds hp trivial) fun h => h), Kept.of_eq rfl rfl rfl⟩
      all_goals
        rw [hp]
        rfl
    case isFalse hd =>
      cases h
      refine ⟨hi.move (L := s.vdiskLock) (hcall (by rw [hp]; rfl)) ?_ ?_ ⟨hst, Bool.eq_false_iff.mpr hd⟩
        (hi.lock_keep (hholds hp trivial) trivial), Kept.of_eq rfl rfl rfl⟩
      all_goals
        rw [hp]
        rfl
  case h_6 c ch hp =>
    rw [hp] at hst
    split at h
    case isTrue hl =>
      cases h
      refine ⟨hi.move (hcall (by rw [hp]; rfl)) ?_ ?_ hst (hi.lock_take hl trivial), Kept.of_eq rfl rfl rfl⟩
      all_goals
        rw [hp]
        rfl
    case isFalse => cases h
  case h_7 c ch hp =>
    have hchain : (s.pc p).chain? = some ch := by rw [hp]; rfl
    rw [hp] at hst
    obtain ⟨P, hP, hdesc, hfree⟩ := freeChain_formatted hst.1 (hi.distinct hchain)
      fun i hhas => hi.inUse hchain hhas
    rw [hP] at h
    cases h
    exact ⟨hi.freed hp hdesc hfree, Kept.of_eq rfl rfl rfl⟩

/-- The device consumes the oldest entry of the avail ring, and sees the
chain of a caller that waits for it, formatted for the caller's request. -/
structure Takes (s s' : Sys) : Prop where
  avail : s.avail.queue = s.avail.cell s.avail.rd :: s'.avail.queue
  used : s'.used.queue = s.used.queue
  disk : s'.disk = s.disk
  chain : ∃ p c ch, (s.pc p).posted? = some (c, ch) ∧ ch.i0 = s.avail.cell s.avail.rd ∧
    s.chainAt ch.i0 = (headDesc ch, dataDesc c ch, statusDesc ch) ∧ s.ops ch.i0 = headerOf c ∧
    c.sector = sectorOf (s.blockno c.b)

/-- The handler consumes the oldest entry of the used ring, and clears the
flag of the caller that waits for it, which was set; the head is no longer
in flight. -/
structure Completes (s s' : Sys) : Prop where
  used : s.used.queue = s.used.cell s.used.rd :: s'.used.queue
  avail : s'.avail.queue = s.avail.queue
  disk : ∃ p c ch, (s.pc p).posted? = some (c, ch) ∧ ch.i0 = s.used.cell s.used.rd ∧
    s.disk c.b = true ∧ s'.disk = update s.disk c.b false
  gone : s.used.cell s.used.rd ∉ s'.flight

/-- What driver and device do to each other in one step. -/
def Exchange (s : Sys) (a : Act) (s' : Sys) : Prop :=
  match a with
  | .take => Takes s s'
  | .intr => (s.used.queue = [] ∧ Kept s s') ∨ Completes s s'
  | _ => Kept s s'

theorem Inv.intr (hi : Inv s) (hlock : s.vdiskLock = some .intr) :
    Inv (intrStep s) ∧ Exchange s .intr (intrStep s) := by
  unfold intrStep
  split
  case isTrue heq =>
    refine ⟨{ hi with lock := fun p => ?_, stage := fun p => ?_ }, .inl ⟨?_, Kept.of_eq rfl rfl rfl⟩⟩
    · have h := hi.lock p
      grind
    · exact (hi.stage p).congr rfl rfl rfl rfl rfl
    · exact RingQueue.queue_eq_nil hi.used_wf heq
  case isFalse hne =>
    obtain ⟨hqueue, hstatus, p, c, ch, hp, h0, hd, hinfo⟩ := hi.completion hne
    rw [h0] at hinfo
    dsimp only
    rw [if_neg (not_not.mpr hstatus), hinfo]
    obtain ⟨hi', hgone⟩ := hi.completed hlock hqueue hp h0
    exact ⟨hi', .inr ⟨hqueue, rfl, ⟨p, c, ch, hp, h0, hd, rfl⟩, hgone⟩⟩

theorem Inv.step (hi : Inv s) {a : Act} (h : step s a = some s') : Inv s' ∧ Exchange s a s' := by
  unfold Virtio.step at h
  rw [if_neg (not_not.mpr hi.panic)] at h
  cases a with
  | lockBuf p b =>
    dsimp only at h
    split at h
    case isTrue hl =>
      cases h
      refine ⟨{ hi with owner := fun {q c} hq => ?_, stage := fun q => ?_ }, Kept.of_eq rfl rfl rfl⟩
      · have ho := hi.owner hq
        grind
      · exact (hi.stage q).congr rfl rfl rfl rfl rfl
    case isFalse => cases h
  | unlockBuf p b =>
    dsimp only at h
    split at h
    case isTrue hl =>
      cases h
      refine ⟨{ hi with owner := fun {q c} hq => ?_, stage := fun q => ?_ }, Kept.of_eq rfl rfl rfl⟩
      · have ho := hi.owner hq
        refine ⟨(update_of_ne (fun heq => ?_) ..).trans ho.1, ho.2⟩
        rw [heq, hl.1] at ho
        replace hq : (s.pc q).call? = _ := hq
        rw [← some.inj ho.1, hl.2] at hq
        cases hq
      · exact (hi.stage q).congr rfl rfl rfl rfl rfl
    case isFalse => cases h
  | rebind b n =>
    dsimp only at h
    split at h
    case isTrue hl =>
      cases h
      refine ⟨{ hi with owner := fun {q c} hq => ?_, stage := fun q => ?_ }, Kept.of_eq rfl rfl rfl⟩
      · have ho := hi.owner hq
        grind
      · exact (hi.stage q).congr rfl rfl rfl rfl rfl
    case isFalse => cases h
  | call p b write =>
    dsimp only at h
    split at h
    case isTrue hl =>
      cases h
      refine ⟨hi.move (fun hc => ?_) ?_ ?_ trivial (hi.lock_take hl.2.2 trivial), Kept.of_eq rfl rfl rfl⟩
      · rw [← some.inj hc]
        exact ⟨hl.1, rfl⟩
      all_goals
        rw [hl.2.1]
        rfl
    case isFalse => cases h
  | rw p =>
    obtain ⟨hi', hk⟩ := hi.rw h
    exact ⟨hi', hk⟩
  | intrEnter =>
    dsimp only at h
    split at h
    case isTrue hl =>
      cases h
      refine ⟨{ hi with lock := fun p => ?_, stage := fun p => ?_ }, Kept.of_eq rfl rfl rfl⟩
      · have h := hi.lock p
        grind
      · exact (hi.stage p).congr rfl rfl rfl rfl rfl
    case isFalse => cases h
  | intr =>
    dsimp only at h
    split at h
    case isTrue hl =>
      cases h
      exact hi.intr hl
    case isFalse => cases h
  | take =>
    dsimp only at h
    split at h
    case isTrue => cases h
    case isFalse hne =>
      cases h
      refine ⟨hi.take_inv hne, hi.take hne, rfl, rfl, ?_⟩
      obtain ⟨p, c, ch, hp, h0, -⟩ := hi.flight.mp
        (mem_append_left _ (by rw [hi.take hne]; exact mem_cons_self ..) :
          s.avail.cell s.avail.rd ∈ s.flight)
      have hf := hi.formatted hp
      exact ⟨p, c, ch, hp, h0, hf.chainAt, hf.header (by omega), (hi.owner (Pc.call?_of_posted? hp)).2⟩
  | status i =>
    dsimp only at h
    split at h
    case isTrue hm =>
      cases h
      refine ⟨hi.status_inv hm, ?_⟩
      rw [hi.storeStatus (mem_flight_taken hm)]
      exact Kept.of_eq rfl rfl rfl
    case isFalse => cases h
  | usedSlot i =>
    dsimp only at h
    split at h
    case isTrue hm =>
      cases h
      have hroom := hi.used_room (mem_append_left _ hm.1)
      exact ⟨hi.usedSlot_inv hm.1 hm.2, prefix_rfl,
        prefix_of_queue_eq (RingQueue.queue_store hi.used_wf NUM_dvd hroom i), fun _ h => h⟩
    case isFalse => cases h
  | usedIdx =>
    dsimp only at h
    split at h
    case isTrue => cases h
    case isFalse hw =>
      cases h
      obtain ⟨i, hw⟩ := ne_none_iff_exists'.mp hw
      refine ⟨hi.usedIdx_inv hw, prefix_rfl, ?_, fun _ h => h⟩
      have hroom : s.used.count < 8 := hi.used_room (i := i) (by rw [hw]; simp)
      exact ⟨_, (RingQueue.queue_publish hi.used_wf NUM_dvd (by omega)).symm⟩

/-! ## Whole runs -/

/-- What holds between driver and device in a state. -/
structure InStep (s : Sys) : Prop where
  descs : ∀ i < NUM,
    (s.pool.free i = true ∧ ∀ x, s.slots x ≠ some i) ∨
    (s.pool.free i = false ∧ ∃! x, s.slots x = some i)
  chains : ∀ {p ch}, (s.pc p).chain? = some ch → ch.Distinct
  once : s.flight.Nodup
  awaited : ∀ {h}, h ∈ s.flight ↔ s.Awaited h
  formatted : ∀ {p c ch}, (s.pc p).posted? = some (c, ch) →
    s.chainAt ch.i0 = (headDesc ch, dataDesc c ch, statusDesc ch) ∧ s.ops ch.i0 = headerOf c ∧
      s.infoB ch.i0 = some c.b
  panic : s.panic = none

theorem Inv.inStep (hi : Inv s) : InStep s where
  descs i hlt := by
    cases hf : s.pool.free i with
    | true =>
      refine .inl ⟨rfl, fun x hx => ?_⟩
      have huse := (hi.exact.mem hx).2
      rw [hf] at huse
      cases huse
    | false => exact .inr ⟨rfl, hi.exact.existsUnique ⟨hlt, hf⟩⟩
  chains := hi.distinct
  once := hi.nodup
  awaited := hi.flight
  formatted hp :=
    have hf := hi.formatted hp
    ⟨hf.chainAt, hf.header (by omega), hf.info (by omega)⟩
  panic := hi.panic

/-- In every state that driver and device reach, each descriptor is free or
in one chain, each posted head is in one place and is a chain formatted for
the request of the caller that waits for it; and no step overwrites a ring
entry, clears another flag or panics. -/
theorem driver_device_in_step {blockno : Nat → Nat} {acts : List Act}
    (hrun : StepSystem.run step (boot blockno) acts = some s) :
    InStep s ∧ ∀ a s', step s a = some s' → Exchange s a s' := by
  have hi : Inv s := StepSystem.run_invariant (fun hi h => (hi.step h).1) (boot_inv blockno) hrun
  exact ⟨hi.inStep, fun a s' h => (hi.step h).2⟩

/-- Two callers post a request each and a third finds too few descriptors;
the device completes the second request first. -/
def outOfOrder : List Act :=
  [.lockBuf 0 5, .lockBuf 1 6, .lockBuf 2 7, .call 0 5 true] ++ replicate 9 (.rw 0) ++
  [.call 1 6 false] ++ replicate 9 (.rw 1) ++
  [.take, .call 2 7 false, .rw 2, .take, .status 3, .usedSlot 3, .usedIdx, .intrEnter]

theorem driver_device_out_of_order : ∃ s, StepSystem.run step (boot id) outOfOrder = some s ∧
    (s.used.queue = [3] ∧ s.disk 5 = true ∧ s.disk 6 = true ∧ s.pc 2 = .sleepFree ⟨7, false, 14⟩) ∧
    InStep s ∧ ∀ a s', step s a = some s' → Exchange s a s' := by
  have hend : (StepSystem.run step (boot id) outOfOrder).map (fun s =>
      (s.used.queue, s.disk 5, s.disk 6, s.pc 2)) =
      some ([3], true, true, .sleepFree ⟨7, false, 14⟩) := by decide +kernel
  obtain ⟨s, hrun, hs⟩ := map_eq_some_iff.mp hend
  simp only [Prod.mk.injEq] at hs
  exact ⟨s, hrun, hs, driver_device_in_step hrun⟩

end Xv6.Virtio
