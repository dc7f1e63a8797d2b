import Xv6.PageRoles

/-!
# What `growproc` reports

`growproc n` should either move the size by `n`, with the pages up to it
mapped, the old bytes kept and new pages zero, or fail and change
nothing. It does, exactly when the new size is a 32-bit number: a shrink
below zero, or growth beyond 2^32, wraps around in the `uint` argument,
and the two helpers answer a new size on the wrong side of the old one
by returning the old one, which `growproc` takes for success.
-/

namespace Xv6.Vm

open Transfer Radix StepSystem Multiset Ends Nat
open ByteVec (Byte)

variable {np : Nat}

/-! ## What a process sees of its memory -/

/-- The entry of a process's table for a page number. -/
def userEntry (S : KSys np) (p : Fin np) (key : Nat) : Nat :=
  (S.proc p).pagetable.elim 0 fun pt => lookup S.kmem.cell 2 pt key

/-- The byte at a virtual address. -/
def userByte (S : KSys np) (p : Fin np) (va : Nat) : Byte :=
  (S.kmem.cell (PTE2PA (userEntry S p (vpn va)))).byte (va % PGSIZE)

/-- Below the trapframe, exactly the pages up to `sz` are mapped. -/
def MapsTo (S : KSys np) (p : Fin np) (sz : Nat) : Prop :=
  ∀ key < vpn TRAPFRAME, pteHas (userEntry S p key) PTE_V = true ↔ key * PGSIZE < PGROUNDUP sz

/-- The size moved by `n`. -/
structure Moved (S : KSys np) (p : Fin np) (n : Int) (S' : KSys np) : Prop where
  size : ((S'.proc p).sz : Int) = (S.proc p).sz + n
  maps : MapsTo S' p (S'.proc p).sz
  bytes : ∀ va < min (S.proc p).sz (S'.proc p).sz, userByte S' p va = userByte S p va
  zero : ∀ va, PGROUNDUP (S.proc p).sz ≤ va → va < PGROUNDUP (S'.proc p).sz → userByte S' p va = 0

/-- Nothing changed. -/
structure Unmoved (S : KSys np) (p : Fin np) (S' : KSys np) : Prop where
  size : (S'.proc p).sz = (S.proc p).sz
  maps : ∀ key < vpn TRAPFRAME, userEntry S' p key = userEntry S p key
  bytes : ∀ va < PGROUNDUP (S.proc p).sz, userByte S' p va = userByte S p va

/-- What `growproc n` should do. -/
def GrowSpec (M : Machine) (S : KSys np) (p : Fin np) (n : Int) : Prop :=
  ∃ r S', growproc M S p n = .ok (r, S') ∧ (r = 0 ∧ Moved S p n S' ∨ r = -1 ∧ Unmoved S p S')

section Grow

variable {M : Machine} {k k' : Kmem} {t t' : Table} {pt tf n m : Nat}

/-- The pages of the first `n` page numbers are the same, with the same
contents. -/
def SameBelow (k : Kmem) (t : Table) (k' : Kmem) (t' : Table) (n : Nat) : Prop :=
  ∀ key < n, t'.get key = t.get key ∧ k'.cell (PTE2PA (t.get key)) = k.cell (PTE2PA (t.get key))

/-- A step that owns no page below `n` leaves them as they are. -/
theorem SameBelow.of_moves {A A' : Multiset Nat} (hown : Custody M.IsPage k.toStore (A + leafPages t 0 n))
    (hm : Moves k.toStore A k'.toStore A') (hget : ∀ key < n, t'.get key = t.get key) :
    SameBelow k t k' t' n := fun key hkey =>
  ⟨hget key hkey, hown.keeps hm (mem_leafPages.mpr ⟨key, zero_le _, by omega, rfl⟩)⟩

theorem uvmalloc_grows (sz newsz : Nat) (hrep : Rep k.cell t)
    (hown : Custody M.IsPage k.toStore (spacePages t (npg sz))) (hname : t.name = some pt)
    (hs : Space M t tf (npg sz)) (hle : sz ≤ newsz) :
    ∃ r k' t', uvmalloc M k pt sz newsz = .ok (r, k') ∧ SameBelow k t k' t' (npg sz)
      ∧ (r = newsz ∧ Reshapes M tf k t (npg sz) k' t' (npg newsz)
          ∧ (∀ key, npg sz ≤ key → key < npg newsz →
            k'.cell (PTE2PA (t'.get key)) = ByteVec.fill PGSIZE 0)
        ∨ r = 0 ∧ Reshapes M tf k t (npg sz) k' t' (npg sz)
          ∧ ∀ key < NPTE ^ 3, t'.get key = t.get key) := by
  have hcount := Space.count hname hown
  have htop : npg sz ≤ 2 ^ 26 - 2 := hs.user.le
  have hpages : npg sz + (npg newsz - npg sz) = npg newsz := Nat.add_sub_cancel' (npg_mono hle)
  obtain ⟨r, k', t', hrun, ⟨rfl, he, hu⟩ | ⟨rfl, hw⟩⟩ := uvmalloc_ok (M := M) newsz hrep
    hown.left hname hs.user (show _ ≤ 2 ^ 26 - 2 by omega) hle
  · refine ⟨r, k', t', hrun, .of_moves hown he.moves fun key hkey => ?_, .inl ⟨rfl, ?_, fun key h1 h2 => ?_⟩⟩
    · exact he.get key (key_lt_of_userTop (lt_of_lt_of_le hkey hs.user.le)) (.inl hkey)
    · have h := he.reshapes hs (by rwa [hpages])
      rwa [hpages] at h
    · obtain ⟨mem, hpage, hget, hval⟩ := he.new key h1 (by omega)
      rw [hget, isPage_pa hpage (userFlags_lt key)]
      exact hval
  · have hget : ∀ key < NPTE ^ 3, t'.get key = t.get key := fun key hkey => by
      rw [hw.get key hkey, if_neg (by omega)]
    have hm : Moves k.toStore t.nodes k'.toStore t'.nodes := hw.moves.of_eq (add_zero _) rfl
    exact ⟨0, k', t', hrun, .of_moves hown hm fun key hkey =>
      hget key (key_lt_of_userTop (lt_of_lt_of_le hkey hs.user.le)),
      .inr ⟨rfl, hw.reshapes hs, hget⟩⟩

theorem uvmdealloc_shrinks (sz newsz : Nat) (hrep : Rep k.cell t)
    (hown : Custody M.IsPage k.toStore (spacePages t (npg sz))) (hname : t.name = some pt)
    (hs : Space M t tf (npg sz)) (hlt : newsz < sz) :
    ∃ k' t', uvmdealloc M k pt sz newsz = .ok (newsz, k') ∧ SameBelow k t k' t' (npg newsz)
      ∧ Reshapes M tf k t (npg sz) k' t' (npg newsz) := by
  have hpages : npg newsz + (npg sz - npg newsz) = npg sz := Nat.add_sub_cancel' (npg_mono hlt.le)
  have hsplit : spacePages t (npg sz)
      = t.nodes + leafPages t (npg newsz) (npg sz - npg newsz) + leafPages t 0 (npg newsz) := by
    have h := spacePages_add t (npg newsz) (npg sz - npg newsz)
    rw [hpages] at h
    rw [h, spacePages, add_right_comm]
  rw [hsplit] at hown
  obtain ⟨k', t', hrun, hc, hm⟩ := uvmdealloc_lt sz newsz hlt hs.user.le hrep hown.left hname
    fun key _ h2 => hs.user.leaf key h2
  refine ⟨k', t', hrun, .of_moves hown hm fun key hkey => ?_, ?_⟩
  · rw [hc.get key (key_lt_of_userTop (lt_of_lt_of_le (by omega) hs.user.le)), if_neg (by omega)]
  · have h := hc.reshapes (by rwa [hpages]) hm
    rwa [hpages] at h

end Grow

section Spec

variable {M : Machine} {S S' : KSys np} {p : Fin np} {t t' : Table} {pt tf : Nat}

theorem Lives.userEntry_eq (h : Lives M S.kmem.cell (S.proc p) t pt tf)
    (hown : Custody M.IsPage S.kmem.toStore (slotPages (S.proc p) t)) (key : Nat) :
    userEntry S p key = t.get key := by
  rw [userEntry, h.pagetable]
  exact lookup_eq h.rep (fun x hx => (h.owned hown).left.ok_owned hx) h.name key

/-- What `p` is and sees is the same. -/
structure SameView (S : KSys np) (p : Fin np) (S' : KSys np) : Prop where
  proc : S'.proc p = S.proc p
  trapframe : ∀ tf, (S.proc p).trapframe = some tf → S'.kmem.cell tf = S.kmem.cell tf
  entries : ∀ key, userEntry S' p key = userEntry S p key
  bytes : ∀ va < PGROUNDUP (S.proc p).sz, userByte S' p va = userByte S p va

/-- It is, when its pages are. -/
theorem Lives.sameView (h : Lives M S.kmem.cell (S.proc p) t pt tf)
    (hown : Custody M.IsPage S.kmem.toStore (slotPages (S.proc p) t)) (hproc : S'.proc p = S.proc p)
    (hkeep : ∀ x ∈ slotPages (S.proc p) t, S'.kmem.cell x = S.kmem.cell x) : SameView S p S' := by
  have hsz := h.size_lt hown
  rw [h.pages] at hkeep
  have hrep : Rep S'.kmem.cell t := h.rep.frame fun y hy =>
    hkeep y (mem_add.mpr (.inl (mem_add.mpr (.inl hy))))
  have hentries : ∀ key, userEntry S' p key = userEntry S p key := fun key => by
    rw [h.userEntry_eq hown, userEntry, hproc, h.pagetable]
    exact lookup_eq hrep (fun x hx => (h.owned hown).left.ok_owned hx) h.name key
  refine ⟨hproc, fun tf' htf => ?_, hentries, fun va hva => ?_⟩
  · obtain rfl : tf = tf' := Option.some.inj (h.trapframe.symm.trans htf)
    exact hkeep tf (by simp)
  · rw [pgroundup_npg (by omega)] at hva
    have hkey : vpn va < npg (S.proc p).sz := Nat.div_lt_of_lt_mul (by
      rw [mul_comm]
      exact hva)
    rw [userByte, userByte, hentries, h.userEntry_eq hown, hkeep _ (mem_add.mpr (.inl
      (mem_add.mpr (.inr (mem_leafPages.mpr ⟨_, zero_le _, by omega, rfl⟩)))))]

theorem Lives.mapsTo (h : Lives M S.kmem.cell (S.proc p) t pt tf)
    (hown : Custody M.IsPage S.kmem.toStore (slotPages (S.proc p) t)) :
    MapsTo S p (S.proc p).sz := fun key hkey => by
  have hsz := h.size_lt hown
  have htop : key < 2 ^ 26 - 2 := hkey
  rw [h.userEntry_eq hown, h.space.valid_iff (key_lt_of_userTop htop), pgroundup_eq (by omega)]
  show key < ((S.proc p).sz + 4095) / 4096 ∨ key = 2 ^ 26 - 2 ∨ key = 2 ^ 26 - 2 + 1 ↔
    key * 4096 < ((S.proc p).sz + 4095) / 4096 * 4096
  omega

/-- The same pages below `n` are the same bytes. -/
theorem SameBelow.userByte (h : Lives M S.kmem.cell (S.proc p) t pt tf)
    (hown : Custody M.IsPage S.kmem.toStore (slotPages (S.proc p) t))
    (h' : Lives M S'.kmem.cell (S'.proc p) t' pt tf)
    (hown' : Custody M.IsPage S'.kmem.toStore (slotPages (S'.proc p) t')) {n va : Nat}
    (hsame : SameBelow S.kmem t S'.kmem t' n) (hva : vpn va < n) :
    Vm.userByte S' p va = Vm.userByte S p va := by
  obtain ⟨hget, hcell⟩ := hsame (vpn va) hva
  rw [Vm.userByte, Vm.userByte, h'.userEntry_eq hown', h.userEntry_eq hown, hget, hcell]

/-- The slot after a change of its address space to a new size. -/
theorem Lives.resized {k : Kmem} {sz : Nat} (h : Lives M S.kmem.cell (S.proc p) t pt tf)
    (hown : Custody M.IsPage S.kmem.toStore (slotPages (S.proc p) t))
    (hre : Reshapes M tf S.kmem t (npg (S.proc p).sz) k t' (npg sz)) (hk : S'.kmem = k)
    (hx : S'.proc p = { S.proc p with sz := sz }) :
    Lives M S'.kmem.cell (S'.proc p) t' pt tf
      ∧ Custody M.IsPage S'.kmem.toStore (slotPages (S'.proc p) t') := by
  have hl : Lives M S'.kmem.cell (S'.proc p) t' pt tf := by
    rw [hk, hx]
    exact ⟨h.pagetable, h.trapframe, hre.rep, hre.name.trans h.name, hre.space⟩
  refine ⟨hl, ?_⟩
  rw [h.pages] at hown
  rw [hl.pages, hk, hx]
  exact hown.moves (hre.moves.add {tf})

theorem moved_of_grown {k : Kmem} {newsz : Nat} {n : Int}
    (h : Lives M S.kmem.cell (S.proc p) t pt tf)
    (hown : Custody M.IsPage S.kmem.toStore (slotPages (S.proc p) t))
    (hre : Reshapes M tf S.kmem t (npg (S.proc p).sz) k t' (npg newsz)) (hk : S'.kmem = k)
    (hx : S'.proc p = { S.proc p with sz := newsz }) (hn : (newsz : Int) = (S.proc p).sz + n)
    (hsame : SameBelow S.kmem t k t' (npg (min (S.proc p).sz newsz)))
    (hzero : ∀ key, npg (S.proc p).sz ≤ key → key < npg newsz →
      k.cell (PTE2PA (t'.get key)) = ByteVec.fill PGSIZE 0) : Moved S p n S' := by
  obtain ⟨h', hown'⟩ := h.resized hown hre hk hx
  have hsz : (S'.proc p).sz = newsz := by rw [hx]
  have hlt := h.size_lt hown
  have hlt' := h'.size_lt hown'
  refine ⟨by rw [hsz, hn], h'.mapsTo hown', fun va hva => ?_, fun va h1 h2 => ?_⟩
  · rw [hsz] at hva
    rw [← hk] at hsame
    refine hsame.userByte h hown h' hown' ?_
    show va / 4096 < (min (S.proc p).sz newsz + 4095) / 4096
    omega
  · rw [pgroundup_eq (by omega)] at h1 h2
    have hkey := hzero (vpn va) (show ((S.proc p).sz + 4095) / 4096 ≤ va / 4096 by omega)
      (show va / 4096 < (newsz + 4095) / 4096 by omega)
    rw [userByte, h'.userEntry_eq hown', hk, hkey, ByteVec.byte_fill (mod_lt _ (by decide))]

theorem unmoved_of_same {k : Kmem} (h : Lives M S.kmem.cell (S.proc p) t pt tf)
    (hown : Custody M.IsPage S.kmem.toStore (slotPages (S.proc p) t))
    (hre : Reshapes M tf S.kmem t (npg (S.proc p).sz) k t' (npg (S.proc p).sz))
    (hsame : SameBelow S.kmem t k t' (npg (S.proc p).sz))
    (hget : ∀ key < NPTE ^ 3, t'.get key = t.get key) : Unmoved S p (S.setMem k) := by
  obtain ⟨h', hown'⟩ := h.resized hown hre (show (S.setMem k).kmem = k from rfl) rfl
  have hlt := h.size_lt hown
  refine ⟨rfl, fun key hkey => ?_, fun va hva => ?_⟩
  · rw [h'.userEntry_eq hown', h.userEntry_eq hown, hget key (key_lt_of_userTop hkey)]
  · rw [pgroundup_eq (by omega)] at hva
    refine hsame.userByte h hown h' hown' ?_
    show va / 4096 < ((S.proc p).sz + 4095) / 4096
    omega

/-- `growproc` of a process with a page table. -/
theorem growproc_eq (hpt : (S.proc p).pagetable = some pt) (n : Int) :
    growproc M S p n =
      (if 0 < n then uvmalloc M S.kmem pt ((S.proc p).sz % 2 ^ 32)
          ((((S.proc p).sz % 2 ^ 32 : Nat) + n) % 2 ^ 32).toNat >>= fun r =>
        if r.1 % 2 ^ 32 = 0 then .ok (-1, S.setMem r.2)
        else .ok (0, (S.setMem r.2).setProc p { S.proc p with sz := r.1 % 2 ^ 32 })
      else if n < 0 then uvmdealloc M S.kmem pt ((S.proc p).sz % 2 ^ 32)
          ((((S.proc p).sz % 2 ^ 32 : Nat) + n) % 2 ^ 32).toNat >>= fun r =>
        .ok (0, (S.setMem r.2).setProc p { S.proc p with sz := r.1 % 2 ^ 32 })
      else .ok (0, S.setProc p { S.proc p with sz := (S.proc p).sz % 2 ^ 32 })) := by
  -- the right side has conditions of its own, out of the way of `split`
  generalize hr : (if 0 < n then _ else _ : Except KPanic (Int × KSys np)) = r
  unfold growproc
  dsimp only
  split
  · grind
  · grind

/-- A new size that is not a 32-bit number is taken for success, with
the old size kept. -/
theorem growproc_wraps (h : Lives M S.kmem.cell (S.proc p) t pt tf)
    (hown : Custody M.IsPage S.kmem.toStore (slotPages (S.proc p) t)) {n : Int} (hlo : -2 ^ 31 ≤ n)
    (hhi : n < 2 ^ 31) (hout : ¬(0 ≤ (S.proc p).sz + n ∧ (S.proc p).sz + n < 2 ^ 32)) :
    growproc M S p n = .ok (0, S) := by
  have hlt := h.size_lt hown
  have hmod : (S.proc p).sz % 2 ^ 32 = (S.proc p).sz := mod_eq_of_lt hlt
  have hself : S.setProc p { S.proc p with sz := (S.proc p).sz } = S := setProc_self S p
  rw [growproc_eq h.pagetable, hmod]
  by_cases hpos : 0 < n
  · have hnew : (((S.proc p).sz + n) % 2 ^ 32).toNat < (S.proc p).sz := by omega
    rw [if_pos hpos, uvmalloc, if_pos hnew, ok_bind]
    simp only [hmod]
    rw [if_neg (by omega)]
    exact congrArg (fun s => Except.ok (0, s)) hself
  · have hnew : (S.proc p).sz ≤ (((S.proc p).sz + n) % 2 ^ 32).toNat := by omega
    rw [if_neg hpos, if_pos (by omega), uvmdealloc_ge hnew, ok_bind]
    simp only [hmod]
    exact congrArg (fun s => Except.ok (0, s)) hself

theorem not_growSpec (h : Lives M S.kmem.cell (S.proc p) t pt tf)
    (hown : Custody M.IsPage S.kmem.toStore (slotPages (S.proc p) t)) {n : Int} (hlo : -2 ^ 31 ≤ n)
    (hhi : n < 2 ^ 31) (hout : ¬(0 ≤ (S.proc p).sz + n ∧ (S.proc p).sz + n < 2 ^ 32)) :
    ¬GrowSpec M S p n := by
  have hlt := h.size_lt hown
  rintro ⟨r, S', hrun, hspec⟩
  rw [growproc_wraps h hown hlo hhi hout] at hrun
  cases hrun
  rcases hspec with ⟨-, hm⟩ | ⟨hr, -⟩
  · have := hm.size
    omega
  · cases hr

/-- `growproc` does what it reports exactly when the new size is a 32-bit
number. -/
theorem growproc_reports_iff (h : Lives M S.kmem.cell (S.proc p) t pt tf)
    (hown : Custody M.IsPage S.kmem.toStore (slotPages (S.proc p) t)) {n : Int} (hlo : -2 ^ 31 ≤ n)
    (hhi : n < 2 ^ 31) :
    GrowSpec M S p n ↔ 0 ≤ (S.proc p).sz + n ∧ (S.proc p).sz + n < 2 ^ 32 := by
  have hlt := h.size_lt hown
  have hmod : (S.proc p).sz % 2 ^ 32 = (S.proc p).sz := mod_eq_of_lt hlt
  constructor
  · grind [not_growSpec]
  · intro hin
    have hnew : (((S.proc p).sz + n) % 2 ^ 32).toNat = ((S.proc p).sz + n).toNat := by omega
    have hnewlt : ((S.proc p).sz + n).toNat < 2 ^ 32 := by omega
    rw [GrowSpec, growproc_eq h.pagetable, hmod, hnew]
    generalize hnewsz : ((S.proc p).sz + n).toNat = newsz at hnewlt
    have hn : (newsz : Int) = (S.proc p).sz + n := by omega
    have hmod' : newsz % 2 ^ 32 = newsz := mod_eq_of_lt hnewlt
    rcases Int.lt_trichotomy 0 n with hpos | rfl | hneg
    · obtain ⟨r, k, t', hrun, hsame, hres⟩ := uvmalloc_grows (S.proc p).sz newsz h.rep (h.owned hown)
        h.name h.space (by omega)
      rw [if_pos hpos, hrun, ok_bind]
      rcases hres with ⟨rfl, hre, hzero⟩ | ⟨rfl, hre, hget⟩
      · simp only [hmod']
        rw [if_neg (by omega)]
        refine ⟨0, _, rfl, .inl ⟨rfl, moved_of_grown h hown hre rfl (setProc_proc_self ..) hn ?_ hzero⟩⟩
        rwa [min_eq_left (by omega)]
      · grind [unmoved_of_same]
    · have hself : S.setProc p { S.proc p with sz := (S.proc p).sz } = S := setProc_self S p
      refine ⟨0, S, congrArg (fun s => Except.ok (0, s)) hself, .inl ⟨rfl, moved_of_grown h hown
        (.refl h.rep h.space) rfl rfl (by omega) (fun _ _ => ⟨rfl, rfl⟩) fun key h1 h2 => by omega⟩⟩
    · obtain ⟨k, t', hrun, hsame, hre⟩ := uvmdealloc_shrinks (S.proc p).sz newsz h.rep (h.owned hown)
        h.name h.space (by omega)
      rw [if_neg (by omega), if_pos hneg, hrun, ok_bind]
      simp only [hmod']
      refine ⟨0, _, rfl, .inl ⟨rfl, moved_of_grown h hown hre rfl (setProc_proc_self ..) hn ?_
        fun key h1 h2 => ?_⟩⟩
      · rwa [min_eq_right (by omega)]
      · have := npg_mono (show newsz ≤ (S.proc p).sz by omega)
        omega

/-- The first process, with one page. -/
theorem exists_first : ∃ (S : KSys 2) (t : Table) (pt tf : Nat), (S.proc 0).sz = 4096
    ∧ Lives smallMachine S.kmem.cell (S.proc 0) t pt tf
    ∧ Custody smallMachine.IsPage S.kmem.toStore (slotPages (S.proc 0) t) := by
  obtain ⟨S₀, S, hboot, hrun, hP⟩ := bootRun_spec [(.userinit [19, 5, 0, 0], [])]
    (fun S => decide ((S.proc 0).sz = 4096 ∧ (S.proc 0).state ≠ .unused)) (by decide +kernel)
  obtain ⟨hsz, hst⟩ := of_decide_eq_true hP
  obtain ⟨g, hi, -⟩ := run_sound hboot hrun
  obtain ⟨pt, tf, hl⟩ := hi.lives hst
  exact ⟨S, g.tree 0, pt, tf, hsz, hl, hi.slot_owned 0⟩

/-- It grows by 5000 bytes. -/
theorem growproc_reports_grow : ∃ S : KSys 2, (S.proc 0).sz = 4096 ∧ GrowSpec smallMachine S 0 5000 := by
  obtain ⟨S, t, pt, tf, hsz, hl, hown⟩ := exists_first
  refine ⟨S, hsz, (growproc_reports_iff hl hown (by decide) (by decide)).mpr ?_⟩
  rw [hsz]
  decide

/-- Asked to give back 5000 of its 4096 bytes, it is told that it did. -/
theorem growproc_shrink_too_far : ∃ S : KSys 2, (S.proc 0).sz = 4096
    ∧ growproc smallMachine S 0 (-5000) = .ok (0, S) ∧ ¬GrowSpec smallMachine S 0 (-5000) := by
  obtain ⟨S, t, pt, tf, hsz, hl, hown⟩ := exists_first
  have hout : ¬(0 ≤ (S.proc 0).sz + (-5000 : Int) ∧ (S.proc 0).sz + (-5000 : Int) < 2 ^ 32) := by
    rw [hsz]
    decide
  exact ⟨S, hsz, growproc_wraps hl hown (by decide) (by decide) hout,
    not_growSpec hl hown (by decide) (by decide) hout⟩

end Spec

end Xv6.Vm
