import Xv6.Bio

/-!
# The invariant of the buffer cache

`CacheInv` is what every sequence of sections of `bget`, `bread`,
`bwrite`, `brelse`, `bpin` and `bunpin` keeps. A process counts towards
`refcnt` while it waits for, holds, or is about to drop a buffer; a
pinned block counts once more. A buffer with no references is therefore
unlocked, saved and unpinned, which is why recycling it loses nothing.

The invariant is stated buffer by buffer (`BufRefs`, `BufData`): a step
is about one buffer, and the others are framed.
-/

namespace Xv6

open Function List

/-! ## The invariant -/

/-- `1` for the holder of the sleep-lock. -/
def Buf.held (x : Buf) : Nat := if x.holder.isSome then 1 else 0

/-- `1` when the buffer's block is pinned by the log. -/
def Buf.pin (pend : List Nat) (x : Buf) : Nat :=
  if x.dev = ROOTDEV ∧ x.blockno ∈ pend then 1 else 0

/-- What process `p`, being at this call, knows of buffer `i`. -/
def Call.Fits (i : BufId) (x : Buf) (touched : Bool) (p : Nat) : Call → Prop
  | .idle => True
  | .locking j b => j = i → x.IsOf b
  | .filling j b => j = i → x.IsOf b ∧ x.holder = some p ∧ touched = false
  | .dropping j => j = i → x.dev = ROOTDEV

/-- Who refers to buffer `i`, whose record is `x`. -/
structure BufRefs (i : BufId) (x : Buf) (call : Nat → Call) (touched : Bool)
    (pend : List Nat) : Prop where
  /-- References are exactly the calls using the buffer, the holder and
  the pin. -/
  refs : ∃ W : Finset Nat, (∀ p, p ∈ W ↔ (call p).Uses i)
    ∧ x.refcnt = W.card + x.held + x.pin pend
  calls : ∀ p, (call p).Fits i x touched p
  holder : ∀ {p}, x.holder = some p → x.dev = ROOTDEV
    ∧ (x.valid = true ∨ ∃ b, call p = .filling i b)
  touched : touched = true → x.holder ≠ none

/-- What buffer `x` says about its block, on a disk `disk` whose last
contents are `last`. -/
structure BufData (x : Buf) (touched unsaved : Bool) (disk last : Disk) (pend : List Nat) :
    Prop where
  stored : unsaved = true → touched = true
  /-- A valid buffer nobody has stored into shows the last contents. -/
  view : x.dev = ROOTDEV → x.valid = true → touched = false → x.data = last x.blockno
  /-- A saved buffer without a pin agrees with the disk. -/
  clean : x.dev = ROOTDEV → x.valid = true → unsaved = false → x.blockno ∉ pend →
    disk x.blockno = x.data

/-- The cache `c`, the calls in progress and the history fit together
while the log holds a pin on each block of `pend`. -/
structure CacheInv (c : Bcache) (call : Nat → Call) (h : BioHist) (pend : List Nat) : Prop where
  lru : ∀ i, i ∈ c.lru
  refs : ∀ i, BufRefs i (c.buf i) call (h.touched i) pend
  data : ∀ i, BufData (c.buf i) (h.touched i) (h.unsaved i) c.disk h.last pend
  /-- A block has at most one buffer. -/
  unique : ∀ {i j b}, c.Assigned i b → c.Assigned j b → i = j
  /-- A block that is not cached is on the disk. -/
  uncached : ∀ {b}, (∀ i, c.Assigned i b → (c.buf i).valid = false) → c.disk b = h.last b
  pinned : ∀ {b}, b ∈ pend → ∃ i, c.Assigned i b ∧ (c.buf i).valid = true
  nodup : pend.Nodup

/-! ## The calls in progress -/

variable {u : Bool} {disk last : Disk} {α : Type}

section Calls

variable {call : Nat → Call} {W : Finset Nat} {i : BufId} {p : Nat} {y : Call}
  {x x' : Buf} {t t' : Bool} {pend pend' : List Nat}

theorem Call.On.of_uses (h : y.Uses i) : y.On i := by
  cases y with
  | idle => exact h
  | locking j b => exact h
  | filling j b => exact h.elim
  | dropping j => exact h

theorem uses_insert (hW : ∀ q, q ∈ W ↔ (call q).Uses i) (hy : y.Uses i) (q : Nat) :
    q ∈ insert p W ↔ (update call p y q).Uses i := by
  rw [Finset.mem_insert, hW q]
  by_cases h : q = p
  · subst h; simp [hy]
  · simp [h]

theorem uses_erase (hW : ∀ q, q ∈ W ↔ (call q).Uses i) (hy : ¬y.Uses i) (q : Nat) :
    q ∈ W.erase p ↔ (update call p y q).Uses i := by
  rw [Finset.mem_erase, hW q]
  by_cases h : q = p
  · subst h; simp [hy]
  · simp [h]

/-- A call that neither starts nor stops using `i`. -/
theorem uses_same (hW : ∀ q, q ∈ W ↔ (call q).Uses i) (h : ¬(call p).Uses i)
    (hy : ¬y.Uses i) (q : Nat) : q ∈ W ↔ (update call p y q).Uses i := by
  have he := uses_erase (p := p) hW hy q
  rwa [Finset.erase_eq_of_notMem fun hm => h ((hW p).mp hm)] at he

theorem Call.Fits.of_not_on (h : ¬y.On i) : y.Fits i x t p := by
  cases y with
  | idle => trivial
  | locking j b => exact fun hj => absurd hj h
  | filling j b => exact fun hj => absurd hj h
  | dropping j => exact fun hj => absurd hj h

theorem fits_update (h : ∀ q ≠ p, (call q).Fits i x t q) (hy : y.Fits i x t p) (q : Nat) :
    (update call p y q).Fits i x t q := by
  by_cases hq : q = p
  · grind
  · grind

/-- `Fits` looks at the identity, the holder and the mark only. -/
theorem Call.Fits.congr (h : y.Fits i x t p) (hdev : x'.dev = x.dev)
    (hno : x'.blockno = x.blockno) (hh : x'.holder = x.holder) (ht : t = false → t' = false) :
    y.Fits i x' t' p := by
  cases y with
  | idle => trivial
  | locking j b =>
    intro hj
    rw [Buf.IsOf, hdev, hno]
    exact h hj
  | filling j b =>
    intro hj
    rw [Buf.IsOf, hdev, hno, hh]
    exact ⟨(h hj).1, (h hj).2.1, ht (h hj).2.2⟩
  | dropping j =>
    intro hj
    rw [hdev]
    exact h hj

/-- Steps of calls on other buffers. -/
theorem BufRefs.frame (r : BufRefs i x call t pend) (h : ¬(call p).On i) (hy : ¬y.On i) :
    BufRefs i x (update call p y) t pend := by
  refine ⟨?_, fits_update (fun q _ => r.calls q) (.of_not_on hy), ?_, r.touched⟩
  · obtain ⟨W, hW, href⟩ := r.refs
    exact ⟨W, uses_same hW (fun hu => h (.of_uses hu)) (fun hu => hy (.of_uses hu)), href⟩
  · intro q hq
    obtain ⟨hdev, hor⟩ := r.holder hq
    refine ⟨hdev, hor.imp id fun ⟨b, hb⟩ => ⟨b, ?_⟩⟩
    rw [update_of_ne, hb]
    rintro rfl
    rw [hb] at h
    exact h rfl

/-- A pin list that treats the buffer alike. -/
theorem BufRefs.repin (r : BufRefs i x call t pend) (h : x.pin pend' = x.pin pend) :
    BufRefs i x call t pend' :=
  ⟨by rw [h]; exact r.refs, r.calls, r.holder, r.touched⟩

theorem BufRefs.locking {b : Nat} (r : BufRefs i x call t pend) (hp : call p = .locking i b) :
    x.IsOf b := by
  have := r.calls p
  rw [hp] at this
  exact this rfl

theorem BufRefs.filling {b : Nat} (r : BufRefs i x call t pend) (hp : call p = .filling i b) :
    x.IsOf b ∧ x.holder = some p ∧ t = false := by
  have := r.calls p
  rw [hp] at this
  exact this rfl

/-- A buffer without references is nobody's: not locked, not waited for,
not pinned. -/
theorem BufRefs.of_refcnt_zero (r : BufRefs i x call t pend) (h0 : x.refcnt = 0) :
    x.holder = none ∧ (∀ p, ¬(call p).On i) ∧ x.pin pend = 0 := by
  obtain ⟨W, hW, href⟩ := r.refs
  have hheld : x.held = 0 := by omega
  have hnone : x.holder = none := by
    cases hh : x.holder with
    | none => rfl
    | some p => simp [Buf.held, hh] at hheld
  have huses : ∀ p, ¬(call p).Uses i := by grind
  refine ⟨hnone, fun p hp => ?_, by omega⟩
  have hu := huses p
  cases hc : call p with
  | idle => rw [hc] at hp; exact hp
  | locking j b => rw [hc] at hp hu; exact hu hp
  | filling j b =>
    rw [hc] at hp
    obtain rfl : j = i := hp
    have := (r.filling hc).2.1
    rw [hnone] at this
    cases this
  | dropping j => rw [hc] at hp hu; exact hu hp

/-- Nobody has stored into an unlocked buffer. -/
theorem BufRefs.not_touched (r : BufRefs i x call t pend) (hh : x.holder = none) : t = false := by
  cases t with
  | false => rfl
  | true => exact absurd hh (r.touched rfl)

/-- A holder that is not inside `bread` has a valid buffer. -/
theorem BufRefs.valid_of_holder (r : BufRefs i x call t pend) (hh : x.holder = some p)
    (hp : call p = .idle) : x.dev = ROOTDEV ∧ x.valid = true := by
  obtain ⟨hdev, hv | ⟨b, hb⟩⟩ := r.holder hh
  · exact ⟨hdev, hv⟩
  · rw [hp] at hb
    cases hb

theorem BufData.not_unsaved (d : BufData x t u disk last pend) (ht : t = false) : u = false := by
  cases u with
  | false => rfl
  | true =>
    rw [d.stored rfl] at ht
    cases ht

end Calls

/-! ## Steps that keep every buffer's contents -/

/-- The part of a buffer its contents depend on. -/
def Buf.face (x : Buf) : Nat × Nat × Bool × Block := (x.dev, x.blockno, x.valid, x.data)

theorem Buf.face_eq {x y : Buf} (h : x.face = y.face) :
    x.dev = y.dev ∧ x.blockno = y.blockno ∧ x.valid = y.valid ∧ x.data = y.data := by
  simpa [Buf.face] using h

section Invariant

variable {c c' : Bcache} {call : Nat → Call} {h h' : BioHist} {pend : List Nat}
  {p : Nat} {i : BufId} {b : Nat}

/-- A change that keeps a field of one buffer keeps it everywhere. -/
theorem Bcache.set_field (f : Buf → α) {x : Buf} (hx : f x = f (c.buf i)) (j : BufId) :
    f ((c.set i x).buf j) = f (c.buf j) := by
  by_cases hj : j = i
  · subst hj; rw [c.set_self, hx]
  · rw [c.set_of_ne hj]

/-- `brelse` changes one reference count (and the order of the list). -/
theorem Bcache.drop_buf (c : Bcache) (i j : BufId) : (c.drop i).buf j = (c.bunpin i).buf j := by
  unfold Bcache.drop
  dsimp only
  split <;> rfl

/-- A field that is not the reference count. -/
theorem Bcache.drop_field (f : Buf → α) (hf : ∀ x r, f { x with refcnt := r } = f x) (j : BufId) :
    f ((c.drop i).buf j) = f (c.buf j) := by
  rw [c.drop_buf]
  exact c.set_field (i := i) (x := { c.buf i with refcnt := (c.buf i).refcnt - 1 }) f (hf ..) j

/-- A field that is neither the contents nor the valid bit. -/
theorem Bcache.fill_field (f : Buf → α) (hf : ∀ x d v, f { x with data := d, valid := v } = f x)
    (j : BufId) : f ((c.fill i).buf j) = f (c.buf j) := by
  unfold Bcache.fill
  split
  · rfl
  · exact c.set_field (i := i)
      (x := { c.buf i with data := c.disk (c.buf i).blockno, valid := true }) f (hf ..) j

theorem Bcache.fill_of_ne {j : BufId} (hj : j ≠ i) : (c.fill i).buf j = c.buf j := by
  unfold Bcache.fill
  split
  · rfl
  · exact c.set_of_ne hj _

theorem Bcache.assigned_of_face (hf : ∀ j, (c'.buf j).face = (c.buf j).face) (j : BufId)
    (b : Nat) : c'.Assigned j b ↔ c.Assigned j b := by
  obtain ⟨hdev, hno, -, -⟩ := Buf.face_eq (hf j)
  rw [Bcache.Assigned, Buf.IsOf, hdev, hno]
  exact Iff.rfl

theorem BufData.of_face {x y : Buf} {t : Bool} (d : BufData x t u disk last pend)
    (hf : y.face = x.face) : BufData y t u disk last pend := by
  obtain ⟨hdev, hno, hv, hd⟩ := Buf.face_eq hf
  refine ⟨d.stored, ?_, ?_⟩
  · rw [hdev, hno, hv, hd]
    exact d.view
  · rw [hdev, hno, hv, hd]
    exact d.clean

/-- The invariant after a step that only moves references. -/
theorem CacheInv.of_faces {call' : Nat → Call} (inv : CacheInv c call h pend)
    (hf : ∀ j, (c'.buf j).face = (c.buf j).face) (hd : c'.disk = c.disk)
    (hl : ∀ j, j ∈ c'.lru) (hr : ∀ j, BufRefs j (c'.buf j) call' (h.touched j) pend) :
    CacheInv c' call' h pend := by
  have hasg := Bcache.assigned_of_face hf
  have hvalid : ∀ j, (c'.buf j).valid = (c.buf j).valid := fun j => (Buf.face_eq (hf j)).2.2.1
  refine ⟨hl, hr, ?_, ?_, ?_, ?_, inv.nodup⟩
  · intro j
    rw [hd]
    exact (inv.data j).of_face (hf j)
  · intro j k b hj hk
    exact inv.unique ((hasg j b).mp hj) ((hasg k b).mp hk)
  · intro b hb
    rw [hd]
    refine inv.uncached fun j hj => ?_
    grind
  · intro b hb
    obtain ⟨j, hj, hv⟩ := inv.pinned hb
    grind

/-- The references after process `p`'s call moved from something about
`i` to something about `i`, and only buffer `i` changed. -/
theorem CacheInv.refs_set {x : Buf} {y : Call} (inv : CacheInv c call h pend)
    (hp : ∀ j, (call p).On j → j = i) (hy : ∀ j, y.On j → j = i)
    (hi : BufRefs i x (update call p y) (h.touched i) pend) (j : BufId) :
    BufRefs j ((c.set i x).buf j) (update call p y) (h.touched j) pend := by
  by_cases hj : j = i
  · subst hj
    rw [c.set_self]
    exact hi
  · rw [c.set_of_ne hj]
    exact (inv.refs j).frame (fun h => hj (hp j h)) (fun h => hj (hy j h))

theorem Call.On.idle {call : Nat → Call} (hp : call p = .idle) (j : BufId) :
    (call p).On j → j = i := by
  rw [hp]
  exact fun h => h.elim

/-- `bget` on a cached block. -/
theorem CacheInv.hit (inv : CacheInv c call h pend) (hp : call p = .idle)
    (hi : c.Assigned i b) :
    CacheInv (c.set i { c.buf i with refcnt := (c.buf i).refcnt + 1 })
      (update call p (.locking i b)) h pend := by
  refine inv.of_faces (c.set_field Buf.face rfl) rfl inv.lru ?_
  refine inv.refs_set (Call.On.idle hp) (fun j h => Eq.symm h) ?_
  have r := inv.refs i
  refine ⟨?_, fits_update (fun q _ => (r.calls q).congr rfl rfl rfl id) fun _ => hi, ?_,
    r.touched⟩
  · obtain ⟨W, hW, href⟩ := r.refs
    refine ⟨insert p W, uses_insert hW rfl, ?_⟩
    have hnot : p ∉ W := fun hm => by
      have := (hW p).mp hm
      rw [hp] at this
      exact this
    grind [Finset.card_insert_of_notMem hnot, Buf.held, Buf.pin]
  · intro q hq
    obtain ⟨hdev, hor⟩ := r.holder hq
    grind

/-- `acquiresleep` in `bget`. -/
theorem CacheInv.acquire (inv : CacheInv c call h pend) (hp : call p = .locking i b)
    (hfree : (c.buf i).holder = none) :
    CacheInv (c.acquiresleep p i) (update call p (.filling i b)) h pend := by
  refine inv.of_faces (c.set_field Buf.face rfl) rfl inv.lru ?_
  refine inv.refs_set (fun j h => ?_) (fun j h => Eq.symm h) ?_
  · rw [hp] at h
    exact Eq.symm h
  have r := inv.refs i
  have ht := r.not_touched hfree
  refine ⟨?_, fits_update (fun q _ => ?_) fun _ => ⟨r.locking hp, rfl, ht⟩, ?_, ?_⟩
  · obtain ⟨W, hW, href⟩ := r.refs
    refine ⟨W.erase p, uses_erase hW id, ?_⟩
    have hmem : p ∈ W := (hW p).mpr (by rw [hp]; rfl)
    simp only [Buf.held, Buf.pin, hfree] at href ⊢
    grind
  · have hq := r.calls q
    cases hc : call q with
    | idle => trivial
    | locking j d => rw [hc] at hq; exact hq
    | filling j d =>
      rw [hc] at hq
      intro hj
      have := (hq hj).2.1
      rw [hfree] at this
      cases this
    | dropping j => rw [hc] at hq; exact hq
  · intro q hq
    cases hq
    exact ⟨(r.locking hp).1, .inr ⟨b, update_self ..⟩⟩
  · intro h1
    rw [ht] at h1
    cases h1

/-- The first half of `brelse`: the sleep-lock is released. -/
theorem CacheInv.unlock (inv : CacheInv c call h pend) (hp : call p = .idle)
    (hh : (c.buf i).holder = some p) (ht : h.touched i = false) :
    CacheInv (c.releasesleep i) (update call p (.dropping i)) h pend := by
  refine inv.of_faces (c.set_field Buf.face rfl) rfl inv.lru ?_
  refine inv.refs_set (Call.On.idle hp) (fun j h => Eq.symm h) ?_
  have r := inv.refs i
  refine ⟨?_, fits_update (fun q hqp => ?_) fun _ => (r.valid_of_holder hh hp).1, ?_, ?_⟩
  · obtain ⟨W, hW, href⟩ := r.refs
    refine ⟨insert p W, uses_insert hW rfl, ?_⟩
    have hnot : p ∉ W := fun hm => by
      have := (hW p).mp hm
      rw [hp] at this
      exact this
    simp only [Buf.held, Buf.pin, hh] at href ⊢
    grind
  · have hq := r.calls q
    cases hc : call q with
    | idle => trivial
    | locking j d => rw [hc] at hq; exact hq
    | filling j d =>
      rw [hc] at hq
      intro hj
      have := (hq hj).2.1
      grind
    | dropping j => rw [hc] at hq; exact hq
  · intro q hq
    cases hq
  · intro h1
    rw [ht] at h1
    cases h1

/-- The second half of `brelse`: the reference is dropped. -/
theorem CacheInv.drop (inv : CacheInv c call h pend) (hp : call p = .dropping i) :
    CacheInv (c.drop i) (update call p .idle) h pend := by
  refine inv.of_faces (c.drop_field Buf.face fun _ _ => rfl) ?_ ?_ fun j => ?_
  · unfold Bcache.drop
    dsimp only
    split <;> rfl
  · intro j
    unfold Bcache.drop
    dsimp only
    split
    · -- moved to the head of the list
      by_cases hj : j = i
      · exact mem_cons.mpr (.inl hj)
      · exact mem_cons_of_mem _ ((mem_erase_of_ne hj).mpr (inv.lru j))
    · exact inv.lru j
  · rw [c.drop_buf]
    refine inv.refs_set (fun j h => ?_) (fun j (h : Call.On j .idle) => h.elim) ?_ j
    · rw [hp] at h
      exact Eq.symm h
    have r := inv.refs i
    refine ⟨?_, fits_update (fun q _ => (r.calls q).congr rfl rfl rfl id) trivial, ?_, r.touched⟩
    · obtain ⟨W, hW, href⟩ := r.refs
      refine ⟨W.erase p, uses_erase hW id, ?_⟩
      have hmem : p ∈ W := (hW p).mpr (by rw [hp]; rfl)
      grind [Finset.card_erase_of_mem hmem, Buf.held, Buf.pin]
    · intro q hq
      obtain ⟨hdev, hor⟩ := r.holder hq
      grind

/-! ## Steps that change what a buffer holds -/

/-- `bget` recycling an unused buffer for a block that is not cached.
What the buffer held before is on the disk. -/
theorem CacheInv.recycle (inv : CacheInv c call h pend) (hp : call p = .idle)
    (hnone : ∀ j, ¬c.Assigned j b) (h0 : (c.buf i).refcnt = 0) :
    CacheInv (c.set i ((c.buf i).recycled ROOTDEV b))
      (update call p (.locking i b)) h pend := by
  obtain ⟨hh, hcalls, hpin⟩ := (inv.refs i).of_refcnt_zero h0
  have ht := (inv.refs i).not_touched hh
  have hu := (inv.data i).not_unsaved ht
  have hbpend : b ∉ pend := fun hb => by
    obtain ⟨j, hj, -⟩ := inv.pinned hb
    exact hnone j hj
  have hother : ∀ {j d}, j ≠ i →
      ((c.set i ((c.buf i).recycled ROOTDEV b)).Assigned j d ↔ c.Assigned j d) := by
    intro j d hj
    rw [Bcache.Assigned, c.set_of_ne hj]
    exact Iff.rfl
  have hself : ∀ {d}, (c.set i ((c.buf i).recycled ROOTDEV b)).Assigned i d → d = b := by
    intro d hd
    rw [Bcache.Assigned, c.set_self] at hd
    exact hd.2.symm
  refine ⟨inv.lru, ?_, ?_, ?_, ?_, ?_, inv.nodup⟩
  · refine inv.refs_set (Call.On.idle hp) (fun j h => Eq.symm h) ⟨⟨{p}, fun q => ?_, ?_⟩,
      fits_update (fun q _ => .of_not_on (hcalls q)) fun _ => ⟨rfl, rfl⟩, fun hq => ?_, ?_⟩
    · by_cases hq : q = p
      · subst hq
        simp [Call.Uses]
      · simp only [Finset.mem_singleton, hq, false_iff, update_of_ne hq]
        exact fun hu => hcalls q (.of_uses hu)
    · simp [Buf.recycled, Buf.held, Buf.pin, hh, hbpend]
    · rw [Buf.recycled, hh] at hq
      cases hq
    · rw [ht]
      exact fun h => by cases h
  · intro j
    by_cases hj : j = i
    · subst hj
      rw [c.set_self]
      exact ⟨(inv.data j).stored, fun _ hv => (by cases hv), fun _ hv => (by cases hv)⟩
    · rw [c.set_of_ne hj]
      exact inv.data j
  · intro j k d hj hk
    by_cases hji : j = i
    · grind
    · by_cases hki : k = i
      · grind
      · exact inv.unique ((hother hji).mp hj) ((hother hki).mp hk)
  · intro d hd
    show c.disk d = h.last d
    by_cases hi : c.Assigned i d ∧ (c.buf i).valid = true
    · -- the block just evicted
      obtain ⟨⟨hdev, rfl⟩, hv⟩ := hi
      have hnot : (c.buf i).blockno ∉ pend := by
        intro hmem
        rw [Buf.pin, if_pos ⟨hdev, hmem⟩] at hpin
        cases hpin
      rw [(inv.data i).clean hdev hv hu hnot, (inv.data i).view hdev hv ht]
    · refine inv.uncached fun j hj => ?_
      by_cases hji : j = i
      · subst hji
        simpa [hj] using hi
      · have := hd j ((hother hji).mpr hj)
        rwa [c.set_of_ne hji] at this
  · intro d hd
    obtain ⟨j, hj, hv⟩ := inv.pinned hd
    have hji : j ≠ i := by
      rintro rfl
      rw [Buf.pin, if_pos ⟨hj.1, by rw [hj.2]; exact hd⟩] at hpin
      cases hpin
    grind [c.set_of_ne hji]

/-- The tail of `bread`. -/
theorem CacheInv.fill (inv : CacheInv c call h pend) (hp : call p = .filling i b) :
    CacheInv (c.fill i) (update call p .idle) h pend
      ∧ (c.fill i).Assigned i b ∧ ((c.fill i).buf i).data = h.last b := by
  obtain ⟨hb, hh, ht⟩ := (inv.refs i).filling hp
  obtain ⟨hdev, hno⟩ := hb
  have hon : ∀ j, (call p).On j → j = i := by
    intro j h
    rw [hp] at h
    exact Eq.symm h
  have hidle : ∀ j, Call.On j .idle → j = i := fun j h => h.elim
  have huses : ¬(call p).Uses i := by
    rw [hp]
    exact id
  have r := inv.refs i
  obtain ⟨W, hW, href⟩ := r.refs
  unfold Bcache.fill
  split
  · -- already read
    rename_i hv
    refine ⟨inv.of_faces (fun _ => rfl) rfl inv.lru fun j => ?_, ⟨hdev, hno⟩, ?_⟩
    · by_cases hj : j = i
      · subst hj
        exact ⟨⟨W, uses_same hW huses id, href⟩, fits_update (fun q _ => r.calls q) trivial,
          fun hq => ⟨hdev, .inl hv⟩, r.touched⟩
      · exact (inv.refs j).frame (fun h => hj (hon j h)) (fun h => hj (hidle j h))
    · rw [(inv.data i).view hdev hv ht, hno]
  · rename_i hv
    have hv' : (c.buf i).valid = false := by simpa using hv
    have hlast : c.disk (c.buf i).blockno = h.last b := by
      rw [hno]
      refine inv.uncached fun j hj => ?_
      rw [inv.unique hj ⟨hdev, hno⟩]
      exact hv'
    have hasg : ∀ {j d}, (c.set i { c.buf i with
        data := c.disk (c.buf i).blockno, valid := true }).Assigned j d ↔ c.Assigned j d := by
      intro j d
      have h1 := c.set_field (i := i) (x := { c.buf i with
        data := c.disk (c.buf i).blockno, valid := true }) (fun x => x.IsOf d) rfl j
      exact iff_of_eq h1
    refine ⟨⟨inv.lru, ?_, ?_, ?_, ?_, ?_, inv.nodup⟩, hasg.mpr ⟨hdev, hno⟩, ?_⟩
    · exact inv.refs_set hon hidle ⟨⟨W, uses_same hW huses id, href⟩,
        fits_update (fun q _ => (r.calls q).congr rfl rfl rfl id) trivial,
        fun _ => ⟨hdev, .inl rfl⟩, r.touched⟩
    · intro j
      by_cases hj : j = i
      · subst hj
        rw [c.set_self]
        exact ⟨(inv.data j).stored, fun _ _ _ => by rw [hlast, hno], fun _ _ _ _ => rfl⟩
      · rw [c.set_of_ne hj]
        exact inv.data j
    · intro j k d hj hk
      exact inv.unique (hasg.mp hj) (hasg.mp hk)
    · intro d hd
      refine inv.uncached fun j hj => ?_
      by_cases hji : j = i
      · subst hji
        exact hv'
      · have := hd j (hasg.mpr hj)
        rwa [c.set_of_ne hji] at this
    · intro d hd
      obtain ⟨j, hj, hjv⟩ := inv.pinned hd
      refine ⟨j, hasg.mpr hj, ?_⟩
      by_cases hji : j = i
      · subst hji
        rw [c.set_self]
      · rw [c.set_of_ne hji]
        exact hjv
    · rw [c.set_self, hlast]

/-- The holder stores into its buffer. -/
theorem CacheInv.store (inv : CacheInv c call h pend) (hp : call p = .idle)
    (hh : (c.buf i).holder = some p) (d : Block) :
    CacheInv (c.store i d) call (h.touch i) pend := by
  have hasg : ∀ {j b}, (c.store i d).Assigned j b ↔ c.Assigned j b := fun {j b} =>
    iff_of_eq (c.set_field (i := i) (x := { c.buf i with data := d }) (fun x => x.IsOf b) rfl j)
  have hvalid : ∀ j, ((c.store i d).buf j).valid = (c.buf j).valid :=
    c.set_field (i := i) (x := { c.buf i with data := d }) Buf.valid rfl
  refine ⟨inv.lru, ?_, ?_, ?_, ?_, ?_, inv.nodup⟩
  · intro j
    have r := inv.refs j
    by_cases hj : j = i
    · subst hj
      rw [Bcache.store, c.set_self]
      refine ⟨r.refs, fun q => ?_, r.holder, fun _ => by rw [hh]; simp⟩
      -- the holder is past `bread`
      have hq := r.calls q
      cases hc : call q with
      | idle => trivial
      | locking k b => rw [hc] at hq; exact hq
      | filling k b =>
        rw [hc] at hq
        intro hk
        have := (hq hk).2.1
        grind
      | dropping k => rw [hc] at hq; exact hq
    · simp only [Bcache.store, c.set_of_ne hj, BioHist.touch, update_of_ne hj]
      exact r
  · intro j
    by_cases hj : j = i
    · subst hj
      simp only [Bcache.store, c.set_self, BioHist.touch, update_self]
      exact ⟨fun _ => rfl, fun _ _ ht => (by cases ht), fun _ _ hu => (by cases hu)⟩
    · simp only [Bcache.store, c.set_of_ne hj, BioHist.touch, update_of_ne hj]
      exact inv.data j
  · intro j k b hj hk
    exact inv.unique (hasg.mp hj) (hasg.mp hk)
  · intro b hb
    refine inv.uncached fun j hj => ?_
    grind
  · intro b hb
    obtain ⟨j, hj, hjv⟩ := inv.pinned hb
    grind

/-- Another valid buffer of the cache is of another block. -/
theorem CacheInv.blockno_ne {j : BufId} (inv : CacheInv c call h pend) (hi : c.Assigned i b)
    (hj : j ≠ i) (hdev : (c.buf j).dev = ROOTDEV) : (c.buf j).blockno ≠ b :=
  fun hb => hj (inv.unique ⟨hdev, hb⟩ hi)

/-- The saved mark of one buffer, when its block is pinned or on the
disk. -/
theorem BufData.save {x : Buf} {t : Bool} (d : BufData x t u disk last pend)
    (hx : x.blockno ∉ pend → disk x.blockno = x.data) : BufData x t false disk last pend :=
  ⟨fun hu => (by cases hu), d.view, fun _ _ _ hn => hx hn⟩

/-- `bwrite` by the holder. -/
theorem CacheInv.bwrite (inv : CacheInv c call h pend) (hp : call p = .idle)
    (hh : (c.buf i).holder = some p) :
    CacheInv (c.bwrite i) call (h.save i) pend := by
  obtain ⟨hdev, hv⟩ := (inv.refs i).valid_of_holder hh hp
  refine ⟨inv.lru, inv.refs, ?_, inv.unique, ?_, inv.pinned, inv.nodup⟩
  · intro j
    have d := inv.data j
    by_cases hj : j = i
    · subst hj
      simp only [Bcache.bwrite, BioHist.save, update_self]
      exact ⟨fun hu => (by cases hu), d.view, fun _ _ _ _ => update_self ..⟩
    · simp only [Bcache.bwrite, BioHist.save, update_of_ne hj]
      refine ⟨d.stored, d.view, fun hjdev hjv hu hn => ?_⟩
      rw [update_of_ne (inv.blockno_ne ⟨hdev, rfl⟩ hj hjdev)]
      exact d.clean hjdev hjv hu hn
  · intro b hb
    have hne : b ≠ (c.buf i).blockno := by
      rintro rfl
      have hv' : (c.buf i).valid = false := hb i ⟨hdev, rfl⟩
      rw [hv'] at hv
      cases hv
    simp only [Bcache.bwrite, update_of_ne hne]
    exact inv.uncached hb

/-- `log_write` of a block that is in the log already. -/
theorem CacheInv.absorb (inv : CacheInv c call h pend) (hi : c.Assigned i b) (hb : b ∈ pend) :
    CacheInv c call (h.save i) pend := by
  refine ⟨inv.lru, inv.refs, fun j => ?_, inv.unique, inv.uncached, inv.pinned, inv.nodup⟩
  by_cases hj : j = i
  · subst hj
    simp only [BioHist.save, update_self]
    refine (inv.data j).save fun hn => absurd ?_ hn
    rw [hi.2]
    exact hb
  · simp only [BioHist.save, update_of_ne hj]
    exact inv.data j

/-- Adding or removing a pin on the block of one buffer leaves the other
buffers' references alone. -/
theorem CacheInv.refs_repin {pend' : List Nat} {x : Buf} (inv : CacheInv c call h pend)
    (hi : c.Assigned i b) (hpend : ∀ d, d ≠ b → (d ∈ pend' ↔ d ∈ pend))
    (hx : BufRefs i x call (h.touched i) pend') (j : BufId) :
    BufRefs j ((c.set i x).buf j) call (h.touched j) pend' := by
  by_cases hj : j = i
  · subst hj
    rw [c.set_self]
    exact hx
  · rw [c.set_of_ne hj]
    refine (inv.refs j).repin ?_
    unfold Buf.pin
    by_cases hdev : (c.buf j).dev = ROOTDEV
    · simp only [hdev, hpend _ (inv.blockno_ne hi hj hdev)]
    · simp [hdev]

/-- `log_write` of a block that is new in the log: `bpin`. -/
theorem CacheInv.pin (inv : CacheInv c call h pend) (hi : c.Assigned i b) (hp : call p = .idle)
    (hh : (c.buf i).holder = some p) (hb : b ∉ pend) :
    CacheInv (c.bpin i) call (h.save i) (pend ++ [b]) := by
  have hv := ((inv.refs i).valid_of_holder hh hp).2
  have hface : ∀ j, ((c.bpin i).buf j).face = (c.buf j).face :=
    c.set_field (i := i) (x := { c.buf i with refcnt := (c.buf i).refcnt + 1 }) Buf.face rfl
  have hasg := Bcache.assigned_of_face hface
  have hvalid : ∀ j, ((c.bpin i).buf j).valid = (c.buf j).valid := fun j =>
    (Buf.face_eq (hface j)).2.2.1
  refine ⟨inv.lru, ?_, ?_, ?_, ?_, ?_, ?_⟩
  · refine inv.refs_repin hi (fun d hd => by simp [hd]) ?_
    have r := inv.refs i
    obtain ⟨W, hW, href⟩ := r.refs
    refine ⟨⟨W, hW, ?_⟩, fun q => (r.calls q).congr rfl rfl rfl id, r.holder, r.touched⟩
    simp only [Buf.held, Buf.pin, hi.1, hi.2, hb, mem_append, mem_singleton,
      or_true, and_true, and_false, if_true, if_false] at href ⊢
    omega
  · intro j
    refine BufData.of_face ?_ (hface j)
    have d := inv.data j
    by_cases hj : j = i
    · subst hj
      simp only [BioHist.save, update_self]
      refine ⟨fun hu => (by cases hu), d.view, fun _ _ _ hn => absurd ?_ hn⟩
      simp [hi.2]
    · simp only [BioHist.save, update_of_ne hj]
      refine ⟨d.stored, d.view, fun hdev hjv hu hn => d.clean hdev hjv hu fun hm => hn ?_⟩
      exact mem_append_left _ hm
  · intro j k d hj hk
    exact inv.unique ((hasg j d).mp hj) ((hasg k d).mp hk)
  · intro d hd
    refine inv.uncached fun j hj => ?_
    grind
  · intro d hd
    rcases mem_append.mp hd with hd | hd
    · obtain ⟨j, hj, hjv⟩ := inv.pinned hd
      grind
    · grind
  · exact inv.nodup.append (nodup_singleton b) (by simpa using hb)

/-- `bunpin` of a block that has been written home. -/
theorem CacheInv.unpin {rest : List Nat} (inv : CacheInv c call h (b :: rest))
    (hi : c.Assigned i b) (hhome : c.disk b = (c.buf i).data) :
    CacheInv (c.bunpin i) call h rest := by
  have hnot : b ∉ rest := (nodup_cons.mp inv.nodup).1
  have hface : ∀ j, ((c.bunpin i).buf j).face = (c.buf j).face :=
    c.set_field (i := i) (x := { c.buf i with refcnt := (c.buf i).refcnt - 1 }) Buf.face rfl
  have hasg := Bcache.assigned_of_face hface
  have hvalid : ∀ j, ((c.bunpin i).buf j).valid = (c.buf j).valid := fun j =>
    (Buf.face_eq (hface j)).2.2.1
  refine ⟨inv.lru, ?_, ?_, ?_, ?_, ?_, (nodup_cons.mp inv.nodup).2⟩
  · refine inv.refs_repin hi (fun d hd => by simp [hd]) ?_
    have r := inv.refs i
    obtain ⟨W, hW, href⟩ := r.refs
    refine ⟨⟨W, hW, ?_⟩, fun q => (r.calls q).congr rfl rfl rfl id, r.holder, r.touched⟩
    simp only [Buf.held, Buf.pin, hi.1, hi.2, hnot, mem_cons, true_or,
      and_true, and_false, if_true, if_false] at href ⊢
    omega
  · intro j
    refine BufData.of_face ?_ (hface j)
    have d := inv.data j
    refine ⟨d.stored, d.view, fun hdev hjv hu hn => ?_⟩
    by_cases hj : j = i
    · subst hj
      rw [hi.2]
      exact hhome
    · refine d.clean hdev hjv hu fun hm => ?_
      rcases mem_cons.mp hm with hb | hm
      · exact inv.blockno_ne hi hj hdev hb
      · exact hn hm
  · intro j k d hj hk
    exact inv.unique ((hasg j d).mp hj) ((hasg k d).mp hk)
  · intro d hd
    refine inv.uncached fun j hj => ?_
    grind
  · intro d hd
    obtain ⟨j, hj, hjv⟩ := inv.pinned (mem_cons_of_mem _ hd)
    grind

/-- The invariant reads three of the history variables. -/
theorem CacheInv.of_hist (inv : CacheInv c call h pend) (ht : h'.touched = h.touched)
    (hu : h'.unsaved = h.unsaved) (hl : h'.last = h.last) : CacheInv c call h' pend := by
  refine ⟨inv.lru, ?_, ?_, inv.unique, ?_, inv.pinned, inv.nodup⟩
  · rw [ht]
    exact inv.refs
  · rw [ht, hu, hl]
    exact inv.data
  · rw [hl]
    exact inv.uncached

/-- What the holder leaves in a saved buffer is the last contents. -/
theorem CacheInv.settle {m : Bool} (inv : CacheInv c call h pend) (hi : c.Assigned i b)
    (hv : (c.buf i).valid = true) (hu : h.unsaved i = false) :
    CacheInv c call (h.settle i (c.buf i) m) pend := by
  obtain ⟨hdev, rfl⟩ := hi
  refine ⟨inv.lru, ?_, ?_, inv.unique, ?_, inv.pinned, inv.nodup⟩
  · intro j
    have r := inv.refs j
    by_cases hj : j = i
    · subst hj
      simp only [BioHist.settle, update_self]
      exact ⟨r.refs, fun q => (r.calls q).congr rfl rfl rfl fun _ => rfl, r.holder,
        fun ht => (by cases ht)⟩
    · simp only [BioHist.settle, update_of_ne hj]
      exact r
  · intro j
    have d := inv.data j
    by_cases hj : j = i
    · subst hj
      simp only [BioHist.settle, update_self]
      refine ⟨fun h1 => ?_, fun _ _ _ => ?_, d.clean⟩
      · rw [hu] at h1
        cases h1
      · rw [update_self]
    · simp only [BioHist.settle, update_of_ne hj]
      refine ⟨d.stored, fun hjdev hjv ht => ?_, d.clean⟩
      rw [update_of_ne (inv.blockno_ne ⟨hdev, rfl⟩ hj hjdev)]
      exact d.view hjdev hjv ht
  · intro d hd
    have hne : d ≠ (c.buf i).blockno := by
      rintro rfl
      rw [hd i ⟨hdev, rfl⟩] at hv
      cases hv
    simp only [BioHist.settle, update_of_ne hne]
    exact inv.uncached hd

end Invariant

end Xv6
