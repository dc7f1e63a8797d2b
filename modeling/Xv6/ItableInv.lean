import Xv6.ItableFace
import Xv6.StepSystem

/-!
# The inode table is a reference-counted cache

A step changes the face of one entry, or the on-disk inode of one key;
entries with references have different keys, so the others keep their
invariant. What holds across entries is that keys are not shared and
that an inode `ialloc` has claimed waits for its `iget` alone.
-/

namespace Xv6

open Function StepSystem Tally List Finset Option Nat

variable {np : Nat}

structure ItableInv (S : ISys np) : Prop where
  entry : ∀ e, EntryInv (S.face e)
  uniq : ∀ e e', 0 < (S.ent e).ref → 0 < (S.ent e').ref → (S.ent e).key = (S.ent e').key → e = e'
  /-- an inode just claimed has no links -/
  linkless : ∀ k, S.Claimed k → (S.disk k).nlink = 0
  claim : ∀ p q k, S.pc p = .claimed k → S.pc q = .claimed k → p = q
  claim_type : ∀ k, S.Claimed k → (S.disk k).type ≠ 0

/-! ## Steps on one entry -/

theorem ISys.setHeld_held (S : ISys np) (p : Fin np) (e : InodeId) (n : Nat) (q : Fin np)
    (e' : InodeId) : (S.setHeld p e n).held q e' = if q = p ∧ e' = e then n else S.held q e' := by
  show update S.held p (update (S.held p) e n) q e' = _
  by_cases hq : q = p
  · subst hq
    rw [update_self]
    grind
  · simp_all

/-- Process `p` changes entry `e`, its on-disk inode, its own references
and its place. -/
def ISys.change (S : ISys np) (p : Fin np) (e : InodeId) (x : IEntry np) (d : Inode) (n : Nat)
    (c : IPc) (b : Bool) : ISys np :=
  ((((S.setEnt e x).setDisk (S.ent e).key d).setHeld p e n).setPc p c).setDirty e b

section Change

variable {S : ISys np} {p : Fin np} {e : InodeId} {x : IEntry np} {d : Inode} {n : Nat} {c : IPc}
  {b : Bool}

theorem ISys.change_ent_of_ne {e' : InodeId} (h : e' ≠ e) :
    (S.change p e x d n c b).ent e' = S.ent e' := update_of_ne h ..

theorem ISys.change_pc_of_ne {q : Fin np} (h : q ≠ p) : (S.change p e x d n c b).pc q = S.pc q :=
  update_of_ne h ..

theorem ISys.change_claimed (hc : ∀ k, c ≠ .claimed k) (hp : ∀ k, S.pc p ≠ .claimed k)
    {q : Fin np} {k : InodeKey} :
    (S.change p e x d n c b).pc q = .claimed k ↔ S.pc q = .claimed k := by
  by_cases hq : q = p
  · subst hq
    have hself : (S.change q e x d n c b).pc q = c := update_self ..
    grind
  · rw [change_pc_of_ne hq]

theorem ISys.change_held (q : Fin np) (e' : InodeId) :
    (S.change p e x d n c b).held q e' = if q = p ∧ e' = e then n else S.held q e' :=
  S.setHeld_held p e n q e'

/-- The face the change gives to its entry. -/
theorem ISys.change_face (hx : x.key = (S.ent e).key) (hc : ∀ k, c ≠ .claimed k)
    (hp : ∀ k, S.pc p ≠ .claimed k) :
    (S.change p e x d n c b).face e = { S.face e with
      ent := x
      disk := d
      held := update (S.face e).held p n
      role := update (S.face e).role p (c.role e)
      dirty := b } := by
  have hent : (S.change p e x d n c b).ent e = x := update_self ..
  have hheld : (fun q => (S.change p e x d n c b).held q e)
      = update (S.face e).held p n := by
    funext q
    rw [change_held]
    by_cases hq : q = p
    · grind
    · rw [update_of_ne hq, if_neg fun hc => hq hc.1]
      rfl
  have hrole : (fun q => ((S.change p e x d n c b).pc q).role e)
      = update (S.face e).role p (c.role e) := by
    funext q
    by_cases hq : q = p
    · have hself : (S.change p e x d n c b).pc p = c := update_self ..
      rw [hq, hself, update_self]
    · rw [change_pc_of_ne hq, update_of_ne hq]
      rfl
  have hdisk : (S.change p e x d n c b).disk (S.ent e).key = d := update_self ..
  have hdirty : (S.change p e x d n c b).dirty e = b := update_self ..
  have hclaimed : (S.change p e x d n c b).Claimed (S.ent e).key = S.Claimed (S.ent e).key :=
    propext (exists_congr fun q => change_claimed hc hp)
  unfold ISys.face
  rw [hent, hheld, hrole, hx, hdisk, hdirty, hclaimed]
  rfl

theorem ItableInv.change (h : ItableInv S) (hx : x.key = (S.ent e).key) (hpos : 0 < (S.ent e).ref)
    (hrole : ∀ e' ≠ e, c.role e' = (S.pc p).role e') (hc : ∀ k, c ≠ .claimed k)
    (hp : ∀ k, S.pc p ≠ .claimed k)
    (he : EntryInv { S.face e with
      ent := x
      disk := d
      held := update (S.face e).held p n
      role := update (S.face e).role p (c.role e)
      dirty := b })
    (hclaim : S.Claimed (S.ent e).key → d.nlink = 0 ∧ d.type ≠ 0) :
    ItableInv (S.change p e x d n c b) := by
  have hcl : ∀ k, (S.change p e x d n c b).Claimed k ↔ S.Claimed k := fun k =>
    exists_congr fun q => ISys.change_claimed hc hp
  have hself : (S.change p e x d n c b).ent e = x := update_self ..
  have hdself : (S.change p e x d n c b).disk (S.ent e).key = d := update_self ..
  have hdother : ∀ {k}, k ≠ (S.ent e).key → (S.change p e x d n c b).disk k = S.disk k := fun hk =>
    update_of_ne hk ..
  have hkeys : ∀ e', ((S.change p e x d n c b).ent e').key = (S.ent e').key := fun e' => by
    by_cases he' : e' = e
    · rw [he', hself, hx]
    · rw [ISys.change_ent_of_ne he']
  have hrefs : ∀ e', 0 < ((S.change p e x d n c b).ent e').ref → 0 < (S.ent e').ref := by
    grind [ISys.change_ent_of_ne]
  refine ⟨fun e' => ?_, fun e₁ e₂ h1 h2 hkey => ?_, fun k hk => ?_, fun q q' k hq hq' => ?_,
    fun k hk => ?_⟩
  · by_cases he' : e' = e
    · rw [he', ISys.change_face hx hc hp]
      exact he
    · -- the other faces differ at most in the on-disk inode
      have hroles : (fun q => ((S.change p e x d n c b).pc q).role e')
          = fun q => (S.pc q).role e' := by
        funext q
        by_cases hq : q = p
        · have hpc : (S.change p e x d n c b).pc p = c := update_self ..
          rw [hq, hpc, hrole e' he']
        · rw [ISys.change_pc_of_ne hq]
      have hheld : (fun q => (S.change p e x d n c b).held q e') = fun q => S.held q e' := by
        funext q
        rw [ISys.change_held, if_neg fun hc => he' hc.2]
      have hdirty : (S.change p e x d n c b).dirty e' = S.dirty e' := update_of_ne he' ..
      have hface : (S.change p e x d n c b).face e' = { S.face e' with
          disk := (S.change p e x d n c b).disk (S.ent e').key } := by
        unfold ISys.face
        rw [ISys.change_ent_of_ne he', hroles, hheld, hdirty, propext (hcl _)]
      by_cases hkey : (S.ent e').key = (S.ent e).key
      · have h0 : (S.ent e').ref = 0 := by
          by_contra hne
          exact he' (h.uniq e' e (pos_of_ne_zero hne) hpos hkey)
        rw [hface]
        exact (h.entry e').unref h0 _ _
      · rw [hface, hdother hkey]
        exact h.entry e'
  · rw [hkeys, hkeys] at hkey
    exact h.uniq e₁ e₂ (hrefs e₁ h1) (hrefs e₂ h2) hkey
  · rw [hcl] at hk
    by_cases hkey : k = (S.ent e).key
    · grind
    · rw [hdother hkey]
      exact h.linkless k hk
  · exact h.claim q q' k ((ISys.change_claimed hc hp).mp hq) ((ISys.change_claimed hc hp).mp hq')
  · rw [hcl] at hk
    by_cases hkey : k = (S.ent e).key
    · grind
    · rw [hdother hkey]
      exact h.claim_type k hk

/-- A change that leaves the disk alone. -/
theorem ItableInv.change_ent (h : ItableInv S) (hx : x.key = (S.ent e).key)
    (hpos : 0 < (S.ent e).ref) (hrole : ∀ e' ≠ e, c.role e' = (S.pc p).role e')
    (hc : ∀ k, c ≠ .claimed k) (hp : ∀ k, S.pc p ≠ .claimed k)
    (he : EntryInv { S.face e with
      ent := x
      held := update (S.face e).held p n
      role := update (S.face e).role p (c.role e)
      dirty := b }) : ItableInv (S.change p e x (S.disk (S.ent e).key) n c b) :=
  h.change hx hpos hrole hc hp he fun hcl =>
    ⟨h.linkless _ hcl, h.claim_type _ hcl⟩

end Change

variable {k : InodeKey} {st : PutStage}

section Steps

variable {S S' : ISys np} {p : Fin np} {e : InodeId}

theorem idle_not_claimed (hpc : S.pc p = .idle) : ∀ k, S.pc p ≠ .claimed k := fun k hc => by
  rw [hpc] at hc
  cases hc

theorem role_idle (hpc : S.pc p = .idle) (e : InodeId) : (S.face e).role p = .none := by
  show (S.pc p).role e = .none
  rw [hpc]
  rfl

/-- `ip->ref++` on an entry outside the window. -/
theorem ItableInv.take (h : ItableInv S) (hpc : S.pc p = .idle) (hpos : 0 < (S.ent e).ref)
    (hearly : ∀ q st, (S.face e).role q = .putting st → st.early = false)
    (horphan : ¬((S.face e).disk.type = 0 ∨ (S.face e).claimed)) : ItableInv (S.take p e) := by
  have heq : S.take p e = S.change p e { S.ent e with ref := (S.ent e).ref + 1 }
      (S.disk (S.ent e).key) (S.held p e + 1) (S.pc p) (S.dirty e) := by
    simp only [ISys.take, ISys.change, ISys.setEnt, ISys.setDisk, ISys.setHeld, ISys.setPc,
      ISys.setDirty, update_eq_self]
  rw [heq]
  refine h.change_ent rfl hpos (fun _ _ => rfl) (idle_not_claimed hpc) (idle_not_claimed hpc) ?_
  rw [show (S.pc p).role e = (S.face e).role p from rfl, update_eq_self]
  exact (h.entry e).take p hearly horphan hpos

theorem iget_cases (hget : S.iget p k = some S') :
    (∃ e, (S.ent e).key = k ∧ 0 < (S.ent e).ref ∧ S' = S.take p e)
      ∨ (∀ e, (S.ent e).key = k → (S.ent e).ref = 0) ∧
        ∃ e, (S.ent e).ref = 0 ∧ S' = S.recycle p e k := by
  unfold ISys.iget at hget
  split at hget
  · rename_i e hfind
    have hprop := find?_some hfind
    simp only [decide_eq_true_eq] at hprop
    exact .inl ⟨e, Prod.ext hprop.2.1 hprop.2.2, hprop.1, (some.inj hget).symm⟩
  · rename_i hnone
    rw [find?_eq_none] at hnone
    refine .inr ⟨fun e hk => ?_, ?_⟩
    · have := hnone e (mem_finRange e)
      simp only [decide_eq_true_eq] at this
      by_contra hne
      exact this ⟨pos_of_ne_zero hne, congrArg Prod.fst hk, congrArg Prod.snd hk⟩
    · grind

/-- A free entry is recycled for an inode without one. -/
theorem ItableInv.recycle (h : ItableInv S) (h0 : (S.ent e).ref = 0)
    (hfree : ∀ e', (S.ent e').key = k → (S.ent e').ref = 0)
    (horphan : ¬((S.disk k).type = 0 ∨ S.Claimed k)) : ItableInv (S.recycle p e k) := by
  have hself : (S.recycle p e k).ent e
      = { S.ent e with dev := k.1, inum := k.2, ref := 1, valid := false } :=
    update_self ..
  have hother : ∀ {e'}, e' ≠ e → (S.recycle p e k).ent e' = S.ent e' := fun he =>
    update_of_ne he ..
  have hheld : ∀ q e', (S.recycle p e k).held q e'
      = if q = p ∧ e' = e then S.held p e + 1 else S.held q e' := S.setHeld_held p e _
  refine ⟨fun e' => ?_, fun e₁ e₂ h1 h2 hkey => ?_, h.linkless, h.claim, h.claim_type⟩
  · by_cases he' : e' = e
    · have hface : (S.recycle p e k).face e = { S.face e with
          ent := { S.ent e with dev := k.1, inum := k.2, ref := 1, valid := false }
          disk := S.disk k
          held := update (S.face e).held p ((S.face e).held p + 1)
          claimed := S.Claimed k } := by
        have hh : (fun q => (S.recycle p e k).held q e)
            = update (S.face e).held p ((S.face e).held p + 1) := by
          funext q
          rw [hheld]
          by_cases hq : q = p
          · rw [hq, if_pos ⟨rfl, rfl⟩, update_self]
            rfl
          · rw [if_neg fun hc => hq hc.1, update_of_ne hq]
            rfl
        unfold ISys.face
        rw [hself, hh]
        rfl
      rw [he', hface]
      exact (h.entry e).recycle h0 p k horphan
    · have hh : (fun q => (S.recycle p e k).held q e') = fun q => S.held q e' := by grind
      have hface : (S.recycle p e k).face e' = S.face e' := by
        unfold ISys.face
        rw [hother he', hh]
        rfl
      rw [hface]
      exact h.entry e'
  · -- no other entry in use has the key
    have hkself : ((S.recycle p e k).ent e).key = k := by
      rw [hself]
      rfl
    by_cases he₁ : e₁ = e
    · grind
    · rw [hother he₁] at h1 hkey
      by_cases he₂ : e₂ = e
      · grind
      · rw [hother he₂] at h2 hkey
        exact h.uniq e₁ e₂ h1 h2 hkey

theorem ItableInv.iget (h : ItableInv S) (hpc : S.pc p = .idle)
    (horphan : ¬((S.disk k).type = 0 ∨ S.Claimed k))
    (hearly : ∀ e, (S.ent e).key = k → ∀ q st, (S.face e).role q = .putting st → st.early = false)
    (hget : S.iget p k = some S') : ItableInv S' := by
  rcases iget_cases hget with ⟨e, hk, hpos, rfl⟩ | ⟨hfree, e, h0, rfl⟩
  · refine h.take hpc hpos (hearly e hk) ?_
    show ¬((S.disk (S.ent e).key).type = 0 ∨ S.Claimed (S.ent e).key)
    rw [hk]
    exact horphan
  · exact h.recycle h0 hfree horphan

/-- A process between two roles on one entry, neither of which frees
it. -/
theorem ItableInv.setRole (h : ItableInv S) {c : IPc} (hp : 0 < S.held p e)
    (hold : ∀ st, (S.face e).role p ≠ .putting st) (hnew : ∀ st, c.role e ≠ .putting st)
    (hrole : ∀ e' ≠ e, c.role e' = (S.pc p).role e') (hc : ∀ k, c ≠ .claimed k)
    (hpc : ∀ k, S.pc p ≠ .claimed k) (hlock : c.role e = .loading → (S.ent e).lock = some p)
    (hvalid : (S.ent e).lock = some p → (S.ent e).valid = true ∨ c.role e = .loading)
    (hdirty : S.dirty e = true → (S.ent e).lock = some p → c.role e = .none ∨ c.role e = .locking) :
    ItableInv (S.setPc p c) := by
  have heq : S.setPc p c = S.change p e (S.ent e) (S.disk (S.ent e).key) (S.held p e) c
      (S.dirty e) := by
    simp only [ISys.change, ISys.setEnt, ISys.setDisk, ISys.setHeld, ISys.setPc, ISys.setDirty,
      update_eq_self]
  rw [heq]
  refine h.change_ent rfl ((h.entry e).ref_pos hp) hrole hc hpc ?_
  rw [show S.held p e = (S.face e).held p from rfl, update_eq_self]
  exact (h.entry e).setRole hp hold hnew hlock hvalid hdirty

theorem ItableInv.ilock (h : ItableInv S) (hpc : S.pc p = .idle) (hp : 0 < S.held p e) :
    ItableInv (S.setPc p (.locking e)) := by
  have hself : (IPc.locking e).role e = .locking := if_pos rfl
  refine h.setRole hp (fun st hc => ?_) (fun st hc => ?_) (fun e' he' => ?_) (fun k => nofun)
    (idle_not_claimed hpc) (fun hc => ?_) (fun hl => ?_) fun _ _ => .inr hself
  · rw [role_idle hpc] at hc
    cases hc
  · rw [hself] at hc
    cases hc
  · rw [hpc]
    exact if_neg (Ne.symm he')
  · rw [hself] at hc
    cases hc
  · rcases (h.entry e).valid p hl with hv | hv | hv
    · exact .inl hv
    · rw [role_idle hpc] at hv
      cases hv
    · rw [role_idle hpc] at hv
      cases hv

theorem role_self (hc : S.pc p = .locking e) : (S.face e).role p = .locking := by
  show (S.pc p).role e = _
  rw [hc]
  exact if_pos rfl

theorem role_loading (hc : S.pc p = .loading e) : (S.face e).role p = .loading := by
  show (S.pc p).role e = _
  rw [hc]
  exact if_pos rfl

theorem role_putting (hc : S.pc p = .putting e st) : (S.face e).role p = .putting st := by
  show (S.pc p).role e = _
  rw [hc]
  exact if_pos rfl

/-- `acquiresleep` of `ilock`. -/
theorem ItableInv.acquire (h : ItableInv S) (hpc : S.pc p = .locking e)
    (hfree : (S.ent e).lock = none) : ItableInv ((S.acquire p e).setPc p (.loading e)) := by
  have hrole := role_self hpc
  have heq : (S.acquire p e).setPc p (.loading e) = S.change p e { S.ent e with lock := some p }
      (S.disk (S.ent e).key) (S.held p e) (.loading e) (S.dirty e) := by
    simp only [ISys.acquire, ISys.change, ISys.setEnt, ISys.setDisk, ISys.setHeld, ISys.setPc,
      ISys.setDirty, update_eq_self]
  rw [heq]
  refine h.change_ent rfl ((h.entry e).ref_pos ((h.entry e).used p (by rw [hrole]; exact nofun)))
    (fun e' he' => ?_) (fun k => nofun) (fun k hc => by rw [hpc] at hc; cases hc) ?_
  · rw [hpc]
    exact (if_neg (Ne.symm he')).trans (if_neg (Ne.symm he')).symm
  · rw [show S.held p e = (S.face e).held p from rfl, update_eq_self,
      show (IPc.loading e).role e = .loading from if_pos rfl]
    exact (h.entry e).acquire hrole hfree

/-- The rest of `ilock`, on a valid entry. -/
theorem ItableInv.loaded (h : ItableInv S) (hpc : S.pc p = .loading e)
    (hv : (S.ent e).valid = true) : ItableInv (S.setPc p .idle) := by
  have hrole := role_loading hpc
  refine h.setRole (e := e) ((h.entry e).used p (by rw [hrole]; exact nofun))
    (fun st hc => ?_) (fun st => nofun) (fun e' he' => ?_) (fun k => nofun)
    (fun k hc => by rw [hpc] at hc; cases hc) nofun (fun _ => .inl hv) fun _ _ => .inl rfl
  · rw [hrole] at hc
    cases hc
  · rw [hpc]
    exact (if_neg (Ne.symm he')).symm

/-- `ilock` reads the inode from the disk. -/
theorem ItableInv.load (h : ItableInv S) (hpc : S.pc p = .loading e)
    (htype : (S.disk (S.ent e).key).type ≠ 0) : ItableInv ((S.load e).setPc p .idle) := by
  have hrole := role_loading hpc
  have hp := (h.entry e).used p (by rw [hrole]; exact nofun)
  have heq : S.load e = S.change p e
      { S.ent e with ip := S.disk (S.ent e).key, valid := true } (S.disk (S.ent e).key)
      (S.held p e) (S.pc p) (S.dirty e) := by
    simp only [ISys.load, ISys.change, ISys.setEnt, ISys.setDisk, ISys.setHeld, ISys.setPc,
      ISys.setDirty, update_eq_self]
  have hnc : ∀ k, S.pc p ≠ .claimed k := fun k hc => by
    rw [hpc] at hc
    cases hc
  have h₁ : ItableInv (S.load e) := by
    rw [heq]
    refine h.change_ent rfl ((h.entry e).ref_pos hp) (fun _ _ => rfl) hnc hnc ?_
    rw [show S.held p e = (S.face e).held p from rfl, update_eq_self,
      show (S.pc p).role e = (S.face e).role p from rfl, update_eq_self]
    exact (h.entry e).load hrole htype
  have hv : ((S.load e).ent e).valid = true := by
    show (update S.ent e _ e).valid = true
    rw [update_self]
  exact h₁.loaded hpc hv

/-- The lock holder changes the entry, writes it back, or both. -/
theorem ItableInv.modify (h : ItableInv S) (hpc : S.pc p = .idle)
    (hlock : (S.ent e).lock = some p) {x d : Inode} {b : Bool} (hx : x.type = (S.ent e).ip.type)
    (hd : d = S.disk (S.ent e).key ∧ b = true ∨ d = x ∧ b = false) :
    ItableInv (S.change p e { S.ent e with ip := x } d (S.held p e) (S.pc p) b) := by
  have hrole := role_idle hpc e
  have hp : 0 < S.held p e := (h.entry e).owner p hlock
  have he := (h.entry e).modify hlock hrole hx hd
  have hpos := (h.entry e).ref_pos hp
  -- an entry with a lock holder at rest is owned, so its inode is not free
  have hown : ¬((S.disk (S.ent e).key).type = 0 ∨ S.Claimed (S.ent e).key) := fun hor =>
    (h.entry e).not_freed hp hrole ((h.entry e).orphan hpos hor)
  refine h.change rfl hpos (fun _ _ => rfl) (idle_not_claimed hpc) (idle_not_claimed hpc) ?_
    fun hc => absurd (.inr hc) hown
  rw [show S.held p e = (S.face e).held p from rfl, update_eq_self,
    show (S.pc p).role e = (S.face e).role p from rfl, update_eq_self]
  exact he

/-- `ip->ref--`. -/
theorem ItableInv.drop (h : ItableInv S) (hp : 0 < S.held p e)
    (hpc : S.pc p = .idle ∨ S.pc p = .putting e .drop) (hlock : (S.ent e).lock ≠ some p) :
    ItableInv ((S.drop p e).setPc p .idle) := by
  have hrole : (S.face e).role p = .none ∨ (S.face e).role p = .putting .drop :=
    hpc.imp (fun hc => role_idle hc e) role_putting
  have heq : (S.drop p e).setPc p .idle = S.change p e { S.ent e with ref := (S.ent e).ref - 1 }
      (S.disk (S.ent e).key) (S.held p e - 1) .idle (S.dirty e) := by
    simp only [ISys.drop, ISys.change, ISys.setEnt, ISys.setDisk, ISys.setHeld, ISys.setPc,
      ISys.setDirty, update_eq_self]
  rw [heq]
  refine h.change_ent rfl ((h.entry e).ref_pos hp) (fun e' he' => ?_) (fun k => nofun)
    (fun k hc => ?_) ((h.entry e).drop hp hrole hlock)
  · rcases hpc with hpc | hpc
    · rw [hpc]
    · rw [hpc]
      exact (if_neg (Ne.symm he')).symm
  · grind

/-- `iput` enters the window. -/
theorem ItableInv.startPut (h : ItableInv S) (hpc : S.pc p = .idle) (hp : 0 < S.held p e)
    (href : (S.ent e).ref = 1) (hvalid : (S.ent e).valid = true) (hnl : (S.ent e).ip.nlink = 0)
    (hfree : (S.ent e).lock = none) :
    ItableInv ((S.acquire p e).setPc p (.putting e .trunc)) := by
  have hrole := role_idle hpc e
  have he := h.entry e
  have hpos : 0 < (S.ent e).ref := he.ref_pos hp
  have hothers : ∀ q ≠ p, (S.face e).role q = .none := fun q hq => by
    by_contra hne
    exact hq (he.holder_eq href (he.used q hne) hp)
  have hnoput : ∀ q st, (S.face e).role q ≠ .putting st := fun q st hq => by grind
  have hdirty : (S.face e).dirty = false := by
    by_contra hd
    obtain ⟨q, hq, -⟩ := he.dirty (Bool.eq_true_of_not_eq_false hd)
    have hq' : (S.ent e).lock = some q := hq
    rw [hfree] at hq'
    cases hq'
  have htyped := he.typed hpos hvalid fun q => ⟨hnoput q _, hnoput q _⟩
  -- the entry is unlocked, so it equals the inode on the disk
  have hclean := he.clean hpos hvalid hdirty fun q st hq => absurd hq (hnoput q st)
  have heq : (S.acquire p e).setPc p (.putting e .trunc)
      = S.change p e { S.ent e with lock := some p } (S.disk (S.ent e).key) (S.held p e)
        (.putting e .trunc) (S.dirty e) := by
    simp only [ISys.acquire, ISys.change, ISys.setEnt, ISys.setDisk, ISys.setHeld, ISys.setPc,
      ISys.setDirty, update_eq_self]
  rw [heq]
  refine h.change_ent rfl hpos (fun e' he' => ?_) (fun k => nofun) (idle_not_claimed hpc) ?_
  · rw [hpc]
    exact if_neg (Ne.symm he')
  · rw [show S.held p e = (S.face e).held p from rfl, update_eq_self,
      show (IPc.putting e .trunc).role e = .putting .trunc from if_pos rfl]
    have hself : update (S.face e).role p (.putting .trunc) p = .putting .trunc :=
      update_self ..
    refine EntryInv.of_window he.count href hp rfl hself
      (fun q hq => ?_) hdirty hvalid ⟨hnl, hclean ▸ hnl⟩ ⟨nofun, nofun⟩ nofun (fun _ _ => htyped)
      fun hor => absurd (he.orphan hpos hor) (he.not_freed hp hrole)
    grind

theorem ItableInv.iput (h : ItableInv S) (hpc : S.pc p = .idle) (hp : 0 < S.held p e)
    (hlock : (S.ent e).lock ≠ some p) (hput : S.iput p e = some S') : ItableInv S' := by
  unfold ISys.iput at hput
  split at hput
  · rename_i hlast
    split at hput
    · rename_i hfree
      cases hput
      exact h.startPut hpc hp hlast.1 hlast.2.1 hlast.2.2 hfree
    · cases hput
  · cases hput
    have hsame : (S.drop p e).setPc p .idle = S.drop p e := by
      have : update S.pc p .idle = S.pc := by
        rw [← hpc, update_eq_self]
      show ({ S.drop p e with pc := update S.pc p .idle } : ISys np) = _
      rw [this]
      rfl
    exact hsame ▸ h.drop hp (.inl hpc) hlock

/-- A statement in the window. -/
theorem ItableInv.window_step (h : ItableInv S) {st' : PutStage} (hpc : S.pc p = .putting e st)
    (hearly : st.early = true) {x d : Inode} (hx : x.nlink = (S.ent e).ip.nlink)
    (hd : d = S.disk (S.ent e).key ∨ d = (S.ent e).ip) (hnext : st' ≠ .unlock ∧ st' ≠ .drop)
    (hfree : st' = .free → x.type = 0)
    (htyped : st' ≠ .free → st' ≠ .invalidate → x.type ≠ 0 ∧ d.type = x.type)
    (horphan : st' ≠ .invalidate → d.type ≠ 0) :
    ItableInv (S.change p e { S.ent e with ip := x } d (S.held p e) (.putting e st') false) := by
  have hrole := role_putting hpc
  have he := h.entry e
  obtain ⟨hp, -, -, hown⟩ := he.window hrole hearly
  refine h.change rfl (he.ref_pos hp) (fun e' he' => ?_) (fun k => nofun)
    (fun k hc => by rw [hpc] at hc; cases hc) ?_ fun hc => absurd (.inr hc) hown
  · rw [hpc]
    exact (if_neg (Ne.symm he')).trans (if_neg (Ne.symm he')).symm
  · rw [show S.held p e = (S.face e).held p from rfl, update_eq_self,
      show (IPc.putting e st').role e = .putting st' from if_pos rfl]
    exact he.window_step hrole hearly hx hd hnext hfree htyped horphan

theorem ItableInv.putStep (h : ItableInv S) (hpc : S.pc p = .putting e st) :
    ItableInv (S.putStep p e st) := by
  have hrole := role_putting hpc
  have he := h.entry e
  have hnc : ∀ k, S.pc p ≠ .claimed k := fun k hc => by
    rw [hpc] at hc
    cases hc
  have hnext : ∀ {st'} e', e' ≠ e → (IPc.putting e st').role e' = (S.pc p).role e' :=
    fun e' he' => by
      rw [hpc]
      exact (if_neg (Ne.symm he')).trans (if_neg (Ne.symm he')).symm
  have hp := he.used p (by rw [hrole]; exact nofun)
  have hpos : 0 < (S.ent e).ref := he.ref_pos hp
  -- in the window the entry is not dirty
  have hdirty : st.early = true → update S.dirty e false = S.dirty := fun hearly => by
    rw [← (he.window hrole hearly).2.2.1]
    exact update_eq_self ..
  have htyped : (st = .trunc ∨ st = .update ∨ st = .clear) → (S.ent e).ip.type ≠ 0
      ∧ (S.disk (S.ent e).key).type = (S.ent e).ip.type := by
    intro hst
    have hearly : st.early = true := by rcases hst with rfl | rfl | rfl <;> rfl
    refine he.typed hpos (he.early p st hrole hearly).2.2.1 fun q => ?_
    by_cases hq : q = p
    · grind
    · rw [(he.window hrole hearly).2.1 q hq]
      exact ⟨nofun, nofun⟩
  have hout : ∀ {x : IEntry np} {st'}, EntryInv { S.face e with
      ent := x, role := update (S.face e).role p (.putting st') } →
      x.key = (S.ent e).key → ItableInv ((S.setEnt e x).setPc p (.putting e st')) := by
    intro x st' hface hkey
    have heq : (S.setEnt e x).setPc p (.putting e st') = S.change p e x (S.disk (S.ent e).key)
        (S.held p e) (.putting e st') (S.dirty e) := by
      simp only [ISys.change, ISys.setEnt, ISys.setDisk, ISys.setHeld, ISys.setPc,
        ISys.setDirty, update_eq_self]
    rw [heq]
    refine h.change_ent hkey hpos hnext (fun k => nofun) hnc ?_
    rw [show S.held p e = (S.face e).held p from rfl, update_eq_self,
      show (IPc.putting e st').role e = .putting st' from if_pos rfl]
    exact hface
  cases st with
  | trunc =>
    have heq : S.putStep p e .trunc = S.change p e
        { S.ent e with ip := { (S.ent e).ip with size := 0, addrs := fun _ => 0 } }
        (S.disk (S.ent e).key) (S.held p e) (.putting e .update) false := by
      simp only [ISys.putStep, ISys.change, ISys.setEnt, ISys.setDisk, ISys.setHeld, ISys.setPc,
        ISys.setDirty, update_eq_self, hdirty rfl]
    rw [heq]
    have ht := htyped (.inl rfl)
    refine h.window_step hpc rfl rfl (.inl rfl) ⟨nofun, nofun⟩ nofun (fun _ _ => ht) fun _ => ?_
    rw [ht.2]
    exact ht.1
  | update =>
    have heq : S.putStep p e .update = S.change p e { S.ent e with ip := (S.ent e).ip }
        (S.ent e).ip (S.held p e) (.putting e .clear) false := by
      simp only [ISys.putStep, ISys.iupdate, ISys.change, ISys.setEnt, ISys.setDisk,
        ISys.setHeld, ISys.setPc, ISys.setDirty, update_eq_self]
    rw [heq]
    have ht := htyped (.inr (.inl rfl))
    exact h.window_step hpc rfl rfl (.inr rfl) ⟨nofun, nofun⟩ nofun (fun _ _ => ⟨ht.1, rfl⟩)
      fun _ => ht.1
  | clear =>
    have heq : S.putStep p e .clear = S.change p e
        { S.ent e with ip := { (S.ent e).ip with type := 0 } }
        (S.disk (S.ent e).key) (S.held p e) (.putting e .free) false := by
      simp only [ISys.putStep, ISys.change, ISys.setEnt, ISys.setDisk, ISys.setHeld, ISys.setPc,
        ISys.setDirty, update_eq_self, hdirty rfl]
    rw [heq]
    have ht := htyped (.inr (.inr rfl))
    refine h.window_step hpc rfl rfl (.inl rfl) ⟨nofun, nofun⟩ (fun _ => rfl)
      (fun hc => absurd rfl hc) fun _ => ?_
    rw [ht.2]
    exact ht.1
  | free =>
    have heq : S.putStep p e .free = S.change p e { S.ent e with ip := (S.ent e).ip }
        (S.ent e).ip (S.held p e) (.putting e .invalidate) false := by
      simp only [ISys.putStep, ISys.iupdate, ISys.change, ISys.setEnt, ISys.setDisk,
        ISys.setHeld, ISys.setPc, ISys.setDirty, update_eq_self]
    rw [heq]
    exact h.window_step hpc rfl rfl (.inr rfl) ⟨nofun, nofun⟩ nofun
      (fun _ hc => absurd rfl hc) fun hc => absurd rfl hc
  | invalidate => exact hout (he.invalidate hrole) rfl
  | unlock => exact hout (he.put_unlock hrole) rfl
  | drop => exact h.drop hp (.inr hpc) (he.dropping p hrole)

/-- A reference passes to another process. -/
theorem ItableInv.give (h : ItableInv S) (hpc : S.pc p = .idle) (hp : 0 < S.held p e)
    (hlock : (S.ent e).lock ≠ some p) (q : Fin np) : ItableInv (S.give p q e) := by
  have hheld : ∀ r e', (S.give p q e).held r e' = if r = q ∧ e' = e then
      (S.setHeld p e (S.held p e - 1)).held q e + 1
      else (S.setHeld p e (S.held p e - 1)).held r e' :=
    (S.setHeld p e (S.held p e - 1)).setHeld_held q e _
  refine ⟨fun e' => ?_, h.uniq, h.linkless, h.claim, h.claim_type⟩
  by_cases he' : e' = e
  · subst he'
    -- the count of `p` goes down by one, then that of `q` up by one
    have hmine : (fun r => (S.setHeld p e' (S.held p e' - 1)).held r e')
        = update (S.face e').held p (S.held p e' - 1) := by
      funext r
      rw [S.setHeld_held]
      by_cases hr : r = p
      · grind
      · rw [if_neg fun hc => hr hc.1, update_of_ne hr]
        rfl
    have hsum : ∑ r, (S.give p q e').held r e' = ∑ r, S.held r e' := by
      have h1 := sum_off (s := univ) (f := fun r => S.held r e')
        (g := fun r => (S.setHeld p e' (S.held p e' - 1)).held r e') (mem_univ p)
        fun j hj => by rw [S.setHeld_held, if_neg fun hc => hj hc.1]
      have h2 := sum_off (s := univ)
        (f := fun r => (S.setHeld p e' (S.held p e' - 1)).held r e')
        (g := fun r => (S.give p q e').held r e') (mem_univ q)
        fun j hj => by rw [hheld, if_neg fun hc => hj hc.1]
      have h3 : (S.setHeld p e' (S.held p e' - 1)).held p e' = S.held p e' - 1 :=
        congrFun hmine p |>.trans (update_self ..)
      grind
    refine (h.entry e').rehold hsum fun r hr => ?_
    have hrp : r ≠ p := by
      rintro rfl
      rcases hr with hr | hr
      · exact hr (role_idle hpc e')
      · exact hlock hr
    have hkeep : 0 < S.held r e' := hr.elim ((h.entry e').used r) ((h.entry e').owner r)
    rw [hheld]
    split
    · omega
    · rw [S.setHeld_held, if_neg fun hc => hrp hc.1]
      exact hkeep
  · have hface : (S.give p q e).face e' = S.face e' := by
      have hh : (fun r => (S.give p q e).held r e') = fun r => S.held r e' := by
        funext r
        rw [hheld, if_neg fun hc => he' hc.2, S.setHeld_held, if_neg fun hc => he' hc.2]
      unfold ISys.face
      rw [hh]
      rfl
    rw [hface]
    exact h.entry e'

/-! ## `ialloc` -/

/-- A process moves between places where it works on no entry. -/
theorem ISys.setPc_face {c : IPc} (hold : ∀ e, (S.pc p).role e = .none)
    (hnew : ∀ e, c.role e = .none) (e : InodeId) :
    (S.setPc p c).face e = { S.face e with claimed := (S.setPc p c).Claimed (S.ent e).key } := by
  have hrole : (fun q => ((S.setPc p c).pc q).role e) = fun q => (S.pc q).role e := by
    funext q
    by_cases hq : q = p
    · have hself : (S.setPc p c).pc p = c := update_self ..
      rw [hq, hself, hnew, hold]
    · have hne : (S.setPc p c).pc q = S.pc q := update_of_ne hq ..
      rw [hne]
  unfold ISys.face
  rw [hrole]
  rfl

/-- `ialloc` starts, or goes to the next inode. -/
theorem ItableInv.scan (h : ItableInv S) {c : IPc} (hold : ∀ e, (S.pc p).role e = .none)
    (hnew : ∀ e, c.role e = .none) (hc : ∀ k, c ≠ .claimed k) (hp : ∀ k, S.pc p ≠ .claimed k) :
    ItableInv (S.setPc p c) := by
  have hclaimed : ∀ {q k}, (S.setPc p c).pc q = .claimed k ↔ S.pc q = .claimed k := by
    intro q k
    by_cases hq : q = p
    · have hself : (S.setPc p c).pc p = c := update_self ..
      grind
    · have hne : (S.setPc p c).pc q = S.pc q := update_of_ne hq ..
      rw [hne]
  have hcl : ∀ k, (S.setPc p c).Claimed k = S.Claimed k := fun k =>
    propext (exists_congr fun q => hclaimed)
  refine ⟨fun e => ?_, h.uniq, fun k hk => h.linkless k (hcl k ▸ hk),
    fun q q' k hq hq' => h.claim q q' k (hclaimed.mp hq) (hclaimed.mp hq'),
    fun k hk => h.claim_type k (hcl k ▸ hk)⟩
  rw [ISys.setPc_face hold hnew, hcl]
  exact h.entry e

/-- `ialloc` claims a free inode. An entry that still has it is one
whose `iput` has freed it. -/
theorem ItableInv.claimInode (h : ItableInv S) {x : Inode} (hold : ∀ e, (S.pc p).role e = .none)
    (hp : ∀ k, S.pc p ≠ .claimed k) (hfree : (S.disk k).type = 0) (hx : x.type ≠ 0)
    (hnl : x.nlink = 0) : ItableInv ((S.setDisk k x).setPc p (.claimed k)) := by
  have hnot : ¬S.Claimed k := fun hc => h.claim_type k hc hfree
  have hself : ((S.setDisk k x).setPc p (.claimed k)).pc p = .claimed k := update_self ..
  have hne : ∀ {q}, q ≠ p → ((S.setDisk k x).setPc p (.claimed k)).pc q = S.pc q := fun hq =>
    update_of_ne hq ..
  have hdself : ((S.setDisk k x).setPc p (.claimed k)).disk k = x := update_self ..
  have hdother : ∀ {k'}, k' ≠ k → ((S.setDisk k x).setPc p (.claimed k)).disk k' = S.disk k' :=
    fun hk => update_of_ne hk ..
  have hcl : ∀ {k'}, k' ≠ k → ((S.setDisk k x).setPc p (.claimed k)).Claimed k' = S.Claimed k' := by
    refine fun {k'} hk => propext (exists_congr fun q => ?_)
    grind
  have hface : ∀ e, ((S.setDisk k x).setPc p (.claimed k)).face e = { S.face e with
      disk := ((S.setDisk k x).setPc p (.claimed k)).disk (S.ent e).key
      claimed := ((S.setDisk k x).setPc p (.claimed k)).Claimed (S.ent e).key } := fun e =>
    ISys.setPc_face (S := S.setDisk k x) hold (fun _ => rfl) e
  refine ⟨fun e => ?_, h.uniq, fun k' hk => ?_, fun q q' k' hq hq' => ?_, fun k' hk => ?_⟩
  · rw [hface]
    by_cases hkey : (S.ent e).key = k
    · by_cases h0 : (S.ent e).ref = 0
      · exact (h.entry e).unref h0 _ _
      · rw [hkey, hdself]
        refine (h.entry e).reclaim (pos_of_ne_zero h0) ?_
        show (S.disk (S.ent e).key).type = 0
        rw [hkey, hfree]
    · rw [hdother hkey, hcl hkey]
      exact h.entry e
  · by_cases hkey : k' = k
    · rw [hkey, hdself]
      exact hnl
    · rw [hcl hkey] at hk
      rw [hdother hkey]
      exact h.linkless k' hk
  · by_cases hkey : k' = k
    · subst hkey
      have hwho : ∀ {r}, ((S.setDisk k' x).setPc p (.claimed k')).pc r = .claimed k' → r = p := by
        intro r hr
        by_contra hrp
        rw [hne hrp] at hr
        exact hnot ⟨r, hr⟩
      rw [hwho hq, hwho hq']
    · have hold' : ∀ {r}, ((S.setDisk k x).setPc p (.claimed k)).pc r = .claimed k' →
          S.pc r = .claimed k' := by
        intro r hr
        by_cases hrp : r = p
        · grind
        · rwa [hne hrp] at hr
      exact h.claim q q' k' (hold' hq) (hold' hq')
  · by_cases hkey : k' = k
    · rw [hkey, hdself]
      exact hx
    · rw [hcl hkey] at hk
      rw [hdother hkey]
      exact h.claim_type k' hk

/-- The `iget` at the end of `ialloc`. -/
theorem ItableInv.igetClaimed (h : ItableInv S) (hpc : S.pc p = .claimed k)
    (hget : (S.setPc p .idle).iget p k = some S') : ItableInv S' := by
  have hself : (S.setPc p .idle).pc p = .idle := update_self ..
  have hne : ∀ {q}, q ≠ p → (S.setPc p .idle).pc q = S.pc q := fun hq => update_of_ne hq ..
  have hold : ∀ e, (S.pc p).role e = .none := fun e => by
    rw [hpc]
    rfl
  have hback : ∀ {q k'}, (S.setPc p .idle).pc q = .claimed k' → q ≠ p ∧ S.pc q = .claimed k' := by
    grind
  have hcl : ∀ {k'}, (S.setPc p .idle).Claimed k' → S.Claimed k' := fun ⟨q, hq⟩ =>
    ⟨q, (hback hq).2⟩
  have hnot : ¬(S.setPc p .idle).Claimed k := fun ⟨q, hq⟩ =>
    (hback hq).1 (h.claim q p k (hback hq).2 hpc)
  have h₁ : ItableInv (S.setPc p .idle) := by
    refine ⟨fun e => ?_, h.uniq, fun k' hk => h.linkless k' (hcl hk),
      fun q q' k' hq hq' => h.claim q q' k' (hback hq).2 (hback hq').2,
      fun k' hk => h.claim_type k' (hcl hk)⟩
    rw [ISys.setPc_face hold fun _ => rfl]
    have he := h.entry e
    exact ⟨he.count, he.owner, he.used, he.loading, he.valid, he.dirty, he.typed, he.clean,
      he.early, he.late, he.unlock, fun hr hor => he.orphan hr (hor.imp_right hcl), he.dropping⟩
  refine h₁.iget hself (fun hor => ?_) (fun e hk q st hq => ?_) hget
  · exact hor.elim (h.claim_type k ⟨p, hpc⟩) hnot
  · have hq' : (S.face e).role q = .putting st := by
      rwa [ISys.setPc_face hold fun _ => rfl] at hq
    by_contra hst
    have hearly := (h.entry e).window hq' (Bool.eq_true_of_not_eq_false hst)
    refine hearly.2.2.2 (.inr ?_)
    show S.Claimed (S.ent e).key
    rw [show (S.ent e).key = k from hk]
    exact ⟨p, hpc⟩

theorem ItableInv.advance (h : ItableInv S) (hstep : S.advance p = some S') : ItableInv S' := by
  unfold ISys.advance at hstep
  split at hstep
  · cases hstep
  · rename_i dev inum type hpc
    have hold : ∀ e, (S.pc p).role e = .none := fun e => by
      rw [hpc]
      rfl
    have hnc : ∀ k, S.pc p ≠ .claimed k := fun k hc => by
      rw [hpc] at hc
      cases hc
    split at hstep
    · split at hstep
      · rename_i hfree
        cases hstep
        refine h.claimInode hold hnc hfree ?_ rfl
        cases type <;> decide
      · cases hstep
        exact h.scan hold (fun _ => rfl) (fun k => nofun) hnc
    · cases hstep
  · rename_i k hpc
    exact h.igetClaimed hpc hstep
  · rename_i e hpc
    split at hstep
    · rename_i hfree
      cases hstep
      exact h.acquire hpc hfree
    · cases hstep
  · rename_i e hpc
    split at hstep
    · rename_i hv
      cases hstep
      exact h.loaded hpc hv
    · split at hstep
      · cases hstep
      · rename_i htype
        cases hstep
        exact h.load hpc htype
  · rename_i e st hpc
    cases hstep
    exact h.putStep hpc

/-! ## Runs -/

theorem ItableInv.lookup (h : ItableInv S) (hpc : S.pc p = .idle) (hk : S.Counted k)
    (hget : S.iget p k = some S') : ItableInv S' := by
  refine h.iget hpc (fun hor => ?_) (fun e he q st hq => ?_) hget
  · have := h.linkless k (hor.resolve_left hk.1)
    have := hk.2.1
    omega
  · by_contra hst
    have hnl : (S.disk (S.ent e).key).nlink = 0 :=
      ((h.entry e).early q st hq (Bool.eq_true_of_not_eq_false hst)).2.2.2.2.1
    rw [he] at hnl
    have := hk.2.1
    omega

end Steps

end Xv6
