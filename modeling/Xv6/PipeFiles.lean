import Xv6.ProcSlot
import Xv6.Tally

/-!
# Open files and the pages of pipes

A file's reference count is the number of descriptors that name it plus
the references a call still has in hand. A pipe has at most one file for
each end, and the words `readopen` and `writeopen` in its page say which
ends there are; so the page is freed with the last of them, and the
pages of pipes are those that the files name.
-/

namespace Xv6.Vm

open Function Transfer Tally List Finset Ends

variable {np : Nat}

/-- The descriptors of all processes. -/
def fds (S : KSys np) : Fin np × Fin NOFILE → Option (Fin NFILE) := fun i => (S.proc i.1).ofile i.2

/-- The word of an end of a pipe. -/
def endOff (writable : Bool) : Nat := if writable then writeopenOff else readopenOff

/-- `m` are the descriptors that count, `hand` the references held by
the running call. -/
structure FileInv (S : KSys np) (m : Fin np × Fin NOFILE → Option (Fin NFILE))
    (hand : List (Fin NFILE)) : Prop where
  count : ∀ f, (S.file f).ref = tally m f + hand.count f
  idle : ∀ f, (S.file f).ref = 0 → (S.file f).type = .none
  unique : ∀ f g, (S.file f).type = .pipe → (S.file g).type = .pipe →
    (S.file f).pipe = (S.file g).pipe → (S.file f).writable = (S.file g).writable → f = g
  opened : ∀ f, (S.file f).type = .pipe →
    S.pipeWord (S.file f).pipe (endOff (S.file f).writable) ≠ 0
  shut : ∀ f, (S.file f).type = .pipe →
    S.pipeWord (S.file f).pipe (endOff !(S.file f).writable) ≠ 0 →
    ∃ g, (S.file g).type = .pipe ∧ (S.file g).pipe = (S.file f).pipe
      ∧ (S.file g).writable = !(S.file f).writable

/-- The pages of the pipes that files name. -/
def pipePages (S : KSys np) : Finset Nat :=
  (univ.filter fun f => (S.file f).type = .pipe).image fun f => (S.file f).pipe

/-- What a call did to files, pipes and the descriptors of `p`. A file
that another process has open stays what it is. -/
structure FileStep (S : KSys np) (p : Fin np) (S' : KSys np) : Prop where
  others : ∀ q ≠ p, S'.proc q = S.proc q
  self : S'.proc p = { S.proc p with ofile := (S'.proc p).ofile }
  initproc : S'.initproc = S.initproc
  kpgtbl : S'.kpgtbl = S.kpgtbl
  moves : Moves S.kmem.toStore (pipePages S).val S'.kmem.toStore (pipePages S').val
  kept : ∀ q ≠ p, ∀ fd g, (S.proc q).ofile fd = some g →
    (S'.file g).type = (S.file g).type ∧ (S'.file g).pipe = (S.file g).pipe

variable {g : Fin NFILE} {pi : Nat}

section Basics

variable {S S' S'' : KSys np} {p : Fin np} {m m' : Fin np × Fin NOFILE → Option (Fin NFILE)}
  {hand hand' : List (Fin NFILE)} {f : Fin NFILE}

theorem mem_pipePages {y : Nat} :
    y ∈ pipePages S ↔ ∃ f, (S.file f).type = .pipe ∧ (S.file f).pipe = y := by
  simp [pipePages]

theorem pipePages_congr (h : ∀ f, (S'.file f).type = (S.file f).type)
    (hp : ∀ f, (S.file f).type = .pipe → (S'.file f).pipe = (S.file f).pipe) :
    pipePages S' = pipePages S := by
  ext y
  rw [mem_pipePages, mem_pipePages]
  refine exists_congr fun f => ?_
  rw [h f]
  exact and_congr_right fun ht => by rw [hp f ht]

theorem FileInv.perm (h : FileInv S m hand) (hp : hand.Perm hand') : FileInv S m hand' :=
  ⟨fun f => by rw [h.count f, hp.count_eq], h.idle, h.unique, h.opened, h.shut⟩

theorem FileStep.refl (S : KSys np) (p : Fin np) : FileStep S p S :=
  ⟨fun _ _ => rfl, rfl, rfl, rfl, .refl .., fun _ _ _ _ _ => ⟨rfl, rfl⟩⟩

theorem FileStep.trans (h₁ : FileStep S p S') (h₂ : FileStep S' p S'') : FileStep S p S'' := by
  refine ⟨fun q hq => (h₂.others q hq).trans (h₁.others q hq), ?_, h₂.initproc.trans h₁.initproc,
    h₂.kpgtbl.trans h₁.kpgtbl, h₁.moves.trans h₂.moves, fun q hq fd g hg => ?_⟩
  · rw [h₂.self, h₁.self]
  · obtain ⟨ht₁, hp₁⟩ := h₁.kept q hq fd g hg
    obtain ⟨ht₂, hp₂⟩ := h₂.kept q hq fd g (by rw [h₁.others q hq]; exact hg)
    grind

@[simp] theorem setFile_self (S : KSys np) (f : Fin NFILE) (x : File) :
    (S.setFile f x).file f = x := update_self ..

theorem setFile_ne (x : File) (h : g ≠ f) : (S.setFile f x).file g = S.file g :=
  update_of_ne h ..

/-- Files keep their types and ends, and pipes their words. -/
structure SameFiles (S S' : KSys np) : Prop where
  type : ∀ g, (S'.file g).type = (S.file g).type
  pipe : ∀ g, (S'.file g).pipe = (S.file g).pipe
  writable : ∀ g, (S'.file g).writable = (S.file g).writable
  word : ∀ g, (S.file g).type = .pipe → ∀ b,
    S'.pipeWord (S.file g).pipe (endOff b) = S.pipeWord (S.file g).pipe (endOff b)

theorem SameFiles.pages (h : SameFiles S S') : pipePages S' = pipePages S :=
  pipePages_congr h.type fun g _ => h.pipe g

theorem FileInv.of_same (h : FileInv S m hand) (hs : SameFiles S S')
    (hcount : ∀ g, (S'.file g).ref = tally m' g + hand'.count g)
    (hnone : ∀ g, (S'.file g).ref = 0 → (S.file g).type = .none) : FileInv S' m' hand' := by
  refine ⟨hcount, fun g hg => (hs.type g).trans (hnone g hg), fun f g hf hg hp hw => ?_,
    fun f hf => ?_, fun f hf hne => ?_⟩
  · rw [hs.type] at hf hg
    rw [hs.pipe, hs.pipe] at hp
    rw [hs.writable, hs.writable] at hw
    exact h.unique f g hf hg hp hw
  · rw [hs.type] at hf
    rw [hs.pipe, hs.writable, hs.word f hf]
    exact h.opened f hf
  · rw [hs.type] at hf
    rw [hs.pipe, hs.writable, hs.word f hf] at hne
    obtain ⟨g, ht, hp, hw⟩ := h.shut f hf hne
    exact ⟨g, (hs.type g).trans ht, by rw [hs.pipe, hs.pipe, hp], by rw [hs.writable, hs.writable, hw]⟩

/-- Only reference counts differ. -/
theorem SameFiles.setRef (S : KSys np) (f : Fin NFILE) (n : Nat) :
    SameFiles S (S.setFile f { S.file f with ref := n }) := by
  have hsame : ∀ g, ∃ m, (S.setFile f { S.file f with ref := n }).file g = { S.file g with ref := m } :=
    fun g => by
      by_cases hg : g = f
      · simp_all
      · exact ⟨(S.file g).ref, setFile_ne _ hg⟩
  refine ⟨fun g => ?_, fun g => ?_, fun g => ?_, fun _ _ _ => rfl⟩
  all_goals
    obtain ⟨m, hm⟩ := hsame g
    rw [hm]

/-! ## The words of a pipe -/

theorem pipeWord_set_self (S : KSys np) (pi w : Nat) (b : Bool) (hw : w < 256 ^ 4) :
    (S.setPipeWord pi (endOff b) w).pipeWord pi (endOff b) = w := by
  show (update S.kmem.cell pi _ pi).word 4 (endOff b) = w
  rw [update_self, ByteVec.word_setWord_self (by cases b <;> decide), Nat.mod_eq_of_lt hw]

theorem pipeWord_set_off (S : KSys np) (pi w : Nat) {off off' : Nat}
    (h : off' + 4 ≤ off ∨ off + 4 ≤ off') :
    (S.setPipeWord pi off w).pipeWord pi off' = S.pipeWord pi off' := by
  show (update S.kmem.cell pi _ pi).word 4 off' = _
  rw [update_self, ByteVec.word_setWord_disjoint h]
  rfl

theorem pipeWord_set_end (S : KSys np) (pi w : Nat) {a b : Bool} (h : a ≠ b) :
    (S.setPipeWord pi (endOff b) w).pipeWord pi (endOff a) = S.pipeWord pi (endOff a) :=
  pipeWord_set_off S pi w (by revert a b; decide)

theorem pipeWord_set_page (S : KSys np) {pj : Nat} (h : pj ≠ pi) (off w off' : Nat) :
    (S.setPipeWord pi off w).pipeWord pj off' = S.pipeWord pj off' := by
  show (update S.kmem.cell pi _ pj).word 4 off' = _
  rw [update_of_ne h]
  rfl

end Basics

/-! ## `fileclose` -/

section Close

variable {M : Machine} {S S' : KSys np} {p : Fin np} {m : Fin np × Fin NOFILE → Option (Fin NFILE)}
  {hand : List (Fin NFILE)} {f : Fin NFILE}

/-- A reference that is not the last. -/
theorem FileInv.drop (h : FileInv S m (f :: hand)) (href : 1 < (S.file f).ref) :
    FileInv (S.setFile f { S.file f with ref := (S.file f).ref - 1 }) m hand := by
  refine h.of_same (.setRef S f _) (fun g => ?_) fun g hg => ?_
  · have hcount := h.count g
    by_cases hg : g = f
    · simp_all
    · simp_all [count_cons_of_ne (Ne.symm hg), setFile_ne _ hg]
  · refine h.idle g ?_
    grind [setFile_self, setFile_ne]

/-- The file of the last reference, as `fileclose` leaves it. -/
def shutFile (S : KSys np) (f : Fin NFILE) : KSys np :=
  S.setFile f { S.file f with ref := 0, type := .none }

theorem shutFile_type : ((shutFile S f).file g).type = .pipe ↔
    g ≠ f ∧ (S.file g).type = .pipe := by
  by_cases hg : g = f
  · subst hg
    rw [shutFile, setFile_self]
    simp
  · rw [shutFile, setFile_ne _ hg]
    exact (and_iff_right hg).symm

/-- A file that is not `f`. -/
theorem shutFile_ne (hg : g ≠ f) : (shutFile S f).file g = S.file g :=
  setFile_ne _ hg

/-- The pipes of the files left. -/
theorem mem_pipePages_shut {T : KSys np} (hT : T.file = (shutFile S f).file) {y : Nat} :
    y ∈ pipePages T ↔ ∃ g ≠ f, (S.file g).type = .pipe ∧ (S.file g).pipe = y := by
  rw [mem_pipePages, hT]
  refine exists_congr fun g => ?_
  rw [shutFile_type, and_assoc]
  refine and_congr_right fun hg => ?_
  rw [shutFile_ne hg]

/-- The page of `f` goes when no other file is on it. -/
theorem pipePages_shut_alone {T : KSys np} (hT : T.file = (shutFile S f).file)
    (htype : (S.file f).type = .pipe)
    (halone : ∀ g ≠ f, (S.file g).type = .pipe → (S.file g).pipe ≠ (S.file f).pipe) :
    (pipePages S).val = {(S.file f).pipe} + (pipePages T).val := by
  have hins : pipePages S = insert (S.file f).pipe (pipePages T) := by
    grind [mem_insert, mem_pipePages_shut hT, mem_pipePages]
  have hnot : (S.file f).pipe ∉ pipePages T := fun hc => by grind [mem_pipePages_shut]
  rw [hins, insert_val_of_notMem hnot, Multiset.singleton_add]

/-- It stays when another file is on it. -/
theorem pipePages_shut_shared {T : KSys np} (hT : T.file = (shutFile S f).file) {e : Fin NFILE}
    (hef : e ≠ f) (he : (S.file e).type = .pipe) (hpe : (S.file e).pipe = (S.file f).pipe) :
    pipePages T = pipePages S := by
  ext y
  rw [mem_pipePages_shut hT, mem_pipePages]
  constructor
  · grind
  · grind

/-- With the last reference the file goes, if no word changes that the
files left behind read. -/
theorem FileInv.shutLast (h : FileInv S m (f :: hand)) (href : (S.file f).ref = 1)
    (hfile : S'.file = (shutFile S f).file)
    (hopen : ∀ g ≠ f, (S.file g).type = .pipe →
      S'.pipeWord (S.file g).pipe (endOff (S.file g).writable) ≠ 0)
    (hshut : ∀ g ≠ f, (S.file g).type = .pipe →
      S'.pipeWord (S.file g).pipe (endOff !(S.file g).writable) ≠ 0 →
      ∃ e ≠ f, (S.file e).type = .pipe ∧ (S.file e).pipe = (S.file g).pipe
        ∧ (S.file e).writable = !(S.file g).writable) : FileInv S' m hand := by
  have hcountf := h.count f
  rw [count_cons_self] at hcountf
  refine ⟨fun g => ?_, fun g hg => ?_, fun a b ha hb hp hw => ?_, fun g hg => ?_, fun g hg hne => ?_⟩
  · rw [hfile]
    by_cases hg : g = f
    · grind [shutFile, setFile_self]
    · have hcount := h.count g
      simp_all [count_cons_of_ne (Ne.symm hg), shutFile_ne hg]
  · rw [hfile] at hg ⊢
    by_cases hgf : g = f
    · subst hgf
      rw [shutFile, setFile_self]
    · rw [shutFile_ne hgf] at hg ⊢
      exact h.idle g hg
  · rw [hfile] at ha hb hp hw
    obtain ⟨haf, ha⟩ := shutFile_type.mp ha
    obtain ⟨hbf, hb⟩ := shutFile_type.mp hb
    rw [shutFile_ne haf, shutFile_ne hbf] at hp hw
    exact h.unique a b ha hb hp hw
  · rw [hfile] at hg ⊢
    obtain ⟨hgf, hg⟩ := shutFile_type.mp hg
    rw [shutFile_ne hgf]
    exact hopen g hgf hg
  · rw [hfile] at hg hne ⊢
    obtain ⟨hgf, hg⟩ := shutFile_type.mp hg
    rw [shutFile_ne hgf] at hne ⊢
    obtain ⟨e, hef, ht, hp, hw⟩ := hshut g hgf hg hne
    exact ⟨e, shutFile_type.mpr ⟨hef, ht⟩, by rw [shutFile_ne hef, hp], by rw [shutFile_ne hef, hw]⟩

/-- With the last reference, nobody has the file open. -/
theorem FileInv.last_free (h : FileInv S m (f :: hand)) (href : (S.file f).ref = 1)
    {i : Fin np × Fin NOFILE} (hg : m i = some g) : g ≠ f := by
  rintro rfl
  have hpos := tally_pos.mpr ⟨i, hg⟩
  have hcount := h.count g
  rw [count_cons_self] at hcount
  omega

/-- A step that shuts `f` and writes pages of pipes. -/
theorem FileStep.of_shut (h : FileInv S m (f :: hand)) (href : (S.file f).ref = 1)
    (hm' : ∀ q ≠ p, ∀ fd, m (q, fd) = (S.proc q).ofile fd) (hproc : S'.proc = S.proc) (hfile : S'.file = (shutFile S f).file)
    (hinit : S'.initproc = S.initproc) (hkern : S'.kpgtbl = S.kpgtbl)
    (hm : Moves S.kmem.toStore (pipePages S).val S'.kmem.toStore (pipePages S').val) :
    FileStep S p S' := by
  refine ⟨fun q _ => by rw [hproc], by rw [hproc], hinit, hkern, hm, fun q hq fd g hg => ?_⟩
  rw [hfile, shutFile_ne (h.last_free href ((hm' q hq fd).trans hg))]
  exact ⟨rfl, rfl⟩

/-- The last reference to a file that is no pipe. -/
theorem fileclose_plain (h : FileInv S m (f :: hand)) (href : (S.file f).ref = 1)
    (htype : (S.file f).type ≠ .pipe) (hm' : ∀ q ≠ p, ∀ fd, m (q, fd) = (S.proc q).ofile fd)
    (hproc : S'.proc = S.proc)
    (hfile : S'.file = (shutFile S f).file) (hinit : S'.initproc = S.initproc)
    (hkern : S'.kpgtbl = S.kpgtbl) (hmem : S'.kmem = S.kmem) :
    FileInv S' m hand ∧ FileStep S p S' := by
  have hword : ∀ pi off, S'.pipeWord pi off = S.pipeWord pi off := fun pi off => by
    rw [KSys.pipeWord, hmem]
    rfl
  have hpages : pipePages S' = pipePages S := by grind [mem_pipePages_shut hfile, mem_pipePages]
  refine ⟨h.shutLast href hfile (fun g _ ht => ?_) fun g _ ht hne => ?_,
    .of_shut h href hm' hproc hfile hinit hkern ?_⟩
  · rw [hword]
    exact h.opened g ht
  · rw [hword] at hne
    obtain ⟨e, he, hp, hw⟩ := h.shut g ht hne
    grind
  · rw [hpages, hmem]
    exact .refl ..

/-- The last reference to an end of a pipe. -/
theorem fileclose_pipe (h : FileInv S m (f :: hand)) (href : (S.file f).ref = 1)
    (htype : (S.file f).type = .pipe) (hm' : ∀ q ≠ p, ∀ fd, m (q, fd) = (S.proc q).ofile fd)
    (hown : Custody M.IsPage S.kmem.toStore (pipePages S).val) :
    ∃ S', pipeclose M (shutFile S f) (S.file f).pipe (S.file f).writable = .ok S'
      ∧ S'.proc = S.proc ∧ FileInv S' m hand ∧ FileStep S p S' := by
  have hpi : (S.file f).pipe ∈ pipePages S := mem_pipePages.mpr ⟨f, htype, rfl⟩
  -- another file on the page is the other end
  have hother : ∀ g ≠ f, (S.file g).type = .pipe → (S.file g).pipe = (S.file f).pipe →
      (S.file g).writable ≠ (S.file f).writable := fun g hg ht hp hw =>
    hg (h.unique g f ht htype hp hw)
  let S₁ := (shutFile S f).setPipeWord (S.file f).pipe (endOff (S.file f).writable) 0
  have hself : S₁.pipeWord (S.file f).pipe (endOff (S.file f).writable) = 0 :=
    pipeWord_set_self _ _ 0 _ (by decide)
  have hend : ∀ b ≠ (S.file f).writable,
      S₁.pipeWord (S.file f).pipe (endOff b) = S.pipeWord (S.file f).pipe (endOff b) :=
    fun b hb => pipeWord_set_end (shutFile S f) _ 0 hb
  have hpage : ∀ pj ≠ (S.file f).pipe, ∀ off, S₁.pipeWord pj off = S.pipeWord pj off :=
    fun pj hj off => pipeWord_set_page (shutFile S f) hj _ 0 off
  have hopen : ∀ g ≠ f, (S.file g).type = .pipe →
      S₁.pipeWord (S.file g).pipe (endOff (S.file g).writable) ≠ 0 := fun g hg ht => by
    by_cases hp : (S.file g).pipe = (S.file f).pipe
    · rw [hp, hend _ (hother g hg ht hp), ← hp]
      exact h.opened g ht
    · rw [hpage _ hp]
      exact h.opened g ht
  have hshut : ∀ g ≠ f, (S.file g).type = .pipe →
      S₁.pipeWord (S.file g).pipe (endOff !(S.file g).writable) ≠ 0 →
      ∃ e ≠ f, (S.file e).type = .pipe ∧ (S.file e).pipe = (S.file g).pipe
        ∧ (S.file e).writable = !(S.file g).writable := fun g hg ht hne => by
    have hp : (S.file g).pipe ≠ (S.file f).pipe := fun hp => by
      rw [hp, show (!(S.file g).writable) = (S.file f).writable from
        (Bool.eq_not_of_ne (hother g hg ht hp).symm).symm] at hne
      exact hne hself
    rw [hpage _ hp] at hne
    obtain ⟨e, he, hpe, hw⟩ := h.shut g ht hne
    exact ⟨e, fun hc => hp (by rw [← hpe, hc]), he, hpe, hw⟩
  have hm₁ : Moves S.kmem.toStore (pipePages S).val S₁.kmem.toStore (pipePages S).val :=
    Kmem.moves_setPage hpi _
  unfold pipeclose
  simp only
  rw [show (if (S.file f).writable = true then writeopenOff else readopenOff)
    = endOff (S.file f).writable from rfl]
  change ∃ S', (if S₁.pipeWord (S.file f).pipe (endOff false) = 0
    ∧ S₁.pipeWord (S.file f).pipe (endOff true) = 0 then _ else _) = _ ∧ _
  by_cases hlast : S₁.pipeWord (S.file f).pipe (endOff !(S.file f).writable) = 0
  · -- no other end: the page goes
    have hboth : ∀ b, S₁.pipeWord (S.file f).pipe (endOff b) = 0 := fun b => by
      by_cases hb : b = (S.file f).writable
      · rw [hb, hself]
      · rw [Bool.eq_not_of_ne hb, hlast]
    have halone : ∀ g ≠ f, (S.file g).type = .pipe → (S.file g).pipe ≠ (S.file f).pipe :=
      fun g hg ht hp => hopen g hg ht (hp ▸ hboth _)
    obtain ⟨k, hk, hm, hcell⟩ := kfree_ok (k := S₁.kmem) (hown.ok_owned hpi)
    rw [if_pos ⟨hboth false, hboth true⟩, hk]
    have hword : ∀ pj ≠ (S.file f).pipe, ∀ off, (S₁.setMem k).pipeWord pj off = S₁.pipeWord pj off :=
      fun pj hj off => congrArg (fun v : Page => v.word 4 off) (hcell pj hj)
    have hval := pipePages_shut_alone (T := S₁.setMem k) rfl htype halone
    refine ⟨S₁.setMem k, rfl, rfl, h.shutLast href rfl (fun g hg ht => ?_)
      fun g hg ht hne => ?_, .of_shut h href hm' rfl rfl rfl rfl ?_⟩
    · grind
    · grind
    · refine hm₁.trans ((hm.add (pipePages (S₁.setMem k)).val).of_eq hval.symm (zero_add _))
  · -- the other end keeps the page
    have hne : S.pipeWord (S.file f).pipe (endOff !(S.file f).writable) ≠ 0 := by
      rwa [hend _ (by cases (S.file f).writable <;> decide)] at hlast
    obtain ⟨e, he, hpe, hw⟩ := h.shut f htype hne
    have hef : e ≠ f := fun hc => by grind
    have hpages := pipePages_shut_shared (T := S₁) rfl hef he hpe
    rw [if_neg fun hc => hlast (by cases (S.file f).writable; exacts [hc.2, hc.1])]
    refine ⟨S₁, rfl, rfl, h.shutLast href rfl hopen hshut, .of_shut h href hm' rfl rfl rfl rfl ?_⟩
    rw [hpages]
    exact hm₁

/-- `fileclose` of a reference in hand. -/
theorem fileclose_ok (h : FileInv S m (f :: hand))
    (hm' : ∀ q ≠ p, ∀ fd, m (q, fd) = (S.proc q).ofile fd)
    (hown : Custody M.IsPage S.kmem.toStore (pipePages S).val) :
    ∃ S', fileclose M S f = .ok S' ∧ S'.proc = S.proc ∧ FileInv S' m hand ∧ FileStep S p S' := by
  have hcount := h.count f
  rw [count_cons_self] at hcount
  unfold fileclose
  simp only
  rw [if_neg (by omega)]
  split
  · refine ⟨_, rfl, rfl, h.drop (by omega), fun _ _ => rfl, rfl, rfl, rfl, ?_, fun q _ fd g _ => ?_⟩
    · rw [(SameFiles.setRef S f _).pages]
      exact .refl ..
    · exact ⟨(SameFiles.setRef S f _).type g, (SameFiles.setRef S f _).pipe g⟩
  · have href : (S.file f).ref = 1 := by omega
    cases htype : (S.file f).type with
    | pipe =>
      obtain ⟨S', hrun, hproc, hinv, hstep⟩ := fileclose_pipe h href htype hm' hown
      exact ⟨S', hrun, hproc, hinv, hstep⟩
    | none =>
      exact ⟨_, rfl, rfl, fileclose_plain h href (by rw [htype]; nofun) hm' rfl rfl rfl rfl rfl⟩
    | inode =>
      exact ⟨_, rfl, rfl, fileclose_plain h href (by rw [htype]; nofun) hm' rfl rfl rfl rfl rfl⟩
    | device =>
      exact ⟨_, rfl, rfl, fileclose_plain h href (by rw [htype]; nofun) hm' rfl rfl rfl rfl rfl⟩

end Close

/-! ## Descriptors -/

section Descriptors

variable {M : Machine} {S S' : KSys np} {p q : Fin np} {hand : List (Fin NFILE)} {f : Fin NFILE}
  {fd : Fin NOFILE}

theorem fds_setFd (S : KSys np) (p : Fin np) (fd : Fin NOFILE) (v : Option (Fin NFILE)) :
    fds (S.setFd p fd v) = update (fds S) (p, fd) v := by
  funext ⟨q, fd'⟩
  by_cases hq : q = p
  · subst hq
    rw [fds, KSys.setFd, setProc_proc_self]
    by_cases hfd : fd' = fd
    · grind
    · rw [update_of_ne fun hc => hfd (congrArg Prod.snd hc)]
      exact update_of_ne hfd ..
  · simp_all [fds, KSys.setFd, setProc_proc_ne _ hq]

theorem setFd_ofile_self (S : KSys np) (p : Fin np) (fd : Fin NOFILE) (v : Option (Fin NFILE)) :
    ((S.setFd p fd v).proc p).ofile fd = v := by
  rw [KSys.setFd, setProc_proc_self]
  exact update_self ..

theorem setFd_ofile_ne {fd' : Fin NOFILE} (v : Option (Fin NFILE)) (h : fd' ≠ fd) :
    ((S.setFd p fd v).proc p).ofile fd' = (S.proc p).ofile fd' := by
  rw [KSys.setFd, setProc_proc_self]
  exact update_of_ne h ..

theorem FileStep.setFd (S : KSys np) (p : Fin np) (fd : Fin NOFILE) (v : Option (Fin NFILE)) :
    FileStep S p (S.setFd p fd v) := by
  refine ⟨fun q hq => setProc_proc_ne _ hq, ?_, rfl, rfl, .refl .., fun _ _ _ _ _ => ⟨rfl, rfl⟩⟩
  rw [KSys.setFd, setProc_proc_self]

/-- A descriptor is emptied, its reference is in hand. -/
theorem FileInv.take (h : FileInv S (fds S) hand) (hfd : (S.proc p).ofile fd = some f) :
    FileInv S (update (fds S) (p, fd) none) (f :: hand) := by
  refine h.of_same ⟨fun _ => rfl, fun _ => rfl, fun _ => rfl, fun _ _ _ => rfl⟩ (fun g => ?_) h.idle
  have hu := tally_update (fds S) (p, fd) none g
  rw [show fds S (p, fd) = some f from hfd] at hu
  simp only [reduceCtorEq, if_false] at hu
  rw [h.count g, count_cons]
  by_cases hg : f = g
  · grind
  · grind

/-- An empty descriptor gets the reference in hand. -/
theorem FileInv.give (h : FileInv S (fds S) (f :: hand)) (hfd : (S.proc p).ofile fd = none) :
    FileInv (S.setFd p fd (some f)) (fds (S.setFd p fd (some f))) hand := by
  refine h.of_same ⟨fun _ => rfl, fun _ => rfl, fun _ => rfl, fun _ _ _ => rfl⟩ (fun g => ?_) h.idle
  have hu := tally_update (fds S) (p, fd) (some f) g
  rw [show fds S (p, fd) = none from hfd, if_neg nofun, ← fds_setFd] at hu
  show (S.file g).ref = _
  rw [h.count g, count_cons]
  by_cases hg : f = g
  · grind
  · grind

/-- A descriptor is emptied after its file is closed. -/
theorem fileclose_fd (h : FileInv S (fds S) hand) (hfd : (S.proc p).ofile fd = some f)
    (hown : Custody M.IsPage S.kmem.toStore (pipePages S).val) :
    ∃ S', fileclose M S f = .ok S' ∧ FileInv (S'.setFd p fd none) (fds (S'.setFd p fd none)) hand
      ∧ FileStep S p (S'.setFd p fd none) ∧ S'.proc = S.proc := by
  obtain ⟨S', hrun, hproc, hinv, hstep⟩ := fileclose_ok (M := M) (h.take hfd) (p := p)
    (fun q hq fd' => update_of_ne (fun hc => hq (congrArg Prod.fst hc)) ..) hown
  refine ⟨S', hrun, ?_, hstep.trans (.setFd S' p fd none), hproc⟩
  rw [fds_setFd, show fds S' = fds S from funext fun i => by rw [fds, hproc]; rfl]
  exact hinv.of_same ⟨fun _ => rfl, fun _ => rfl, fun _ => rfl, fun _ _ _ => rfl⟩ hinv.count hinv.idle

end Descriptors

/-! ## New files and pipes -/

section Create

variable {M : Machine} {S S' : KSys np} {p q : Fin np}
  {m : Fin np × Fin NOFILE → Option (Fin NFILE)} {hand : List (Fin NFILE)} {f f0 f1 : Fin NFILE}

theorem filealloc_ok (h : FileInv S m hand) (hrun : filealloc S = some (f, S')) :
    (S.file f).ref = 0 ∧ S' = S.setFile f { S.file f with ref := 1 } ∧ FileInv S' m (f :: hand) := by
  unfold filealloc at hrun
  split at hrun
  · cases hrun
  · rename_i e he
    obtain ⟨rfl, rfl⟩ : e = f ∧ S.setFile e { S.file e with ref := 1 } = S' := by
      simpa using hrun
    have href : (S.file e).ref = 0 := by grind
    refine ⟨href, rfl, h.of_same (.setRef S e 1) (fun g => ?_) fun g hg => ?_⟩
    · have hcount := h.count g
      by_cases hg : g = e
      · grind [setFile_self, count_cons_self]
      · rw [setFile_ne _ hg, count_cons_of_ne (Ne.symm hg)]
        exact hcount
    · by_cases hge : g = e
      · exact hge ▸ h.idle e href
      · rw [setFile_ne _ hge] at hg
        exact h.idle g hg

/-- Only reference counts change. -/
theorem FileStep.setRef (S : KSys np) (p : Fin np) (f : Fin NFILE) (n : Nat) :
    FileStep S p (S.setFile f { S.file f with ref := n }) := by
  refine ⟨fun _ _ => rfl, rfl, rfl, rfl, ?_, fun _ _ _ g _ => ⟨(SameFiles.setRef S f n).type g,
    (SameFiles.setRef S f n).pipe g⟩⟩
  rw [(SameFiles.setRef S f n).pages]
  exact .refl ..

/-- Two files become the ends of a pipe on a page of its own. -/
theorem FileInv.newPipe (h : FileInv S m hand)
    (htype : (S.file f0).type ≠ .pipe ∧ (S.file f1).type ≠ .pipe)
    (hf0 : S'.file f0 = { S.file f0 with type := .pipe, readable := true, writable := false, pipe := pi })
    (hf1 : S'.file f1 = { S.file f1 with type := .pipe, readable := false, writable := true, pipe := pi })
    (hother : ∀ g, g ≠ f0 → g ≠ f1 → S'.file g = S.file g) (hpi : pi ∉ pipePages S)
    (hopen : ∀ b, S'.pipeWord pi (endOff b) ≠ 0)
    (hword : ∀ pj ∈ pipePages S, ∀ off, S'.pipeWord pj off = S.pipeWord pj off)
    (href : (S.file f0).ref ≠ 0 ∧ (S.file f1).ref ≠ 0) : FileInv S' m hand := by
  -- a pipe is the new one or an old one on another page
  have hcases : ∀ g, (S'.file g).type = .pipe →
      (g = f0 ∧ (S'.file g).pipe = pi ∧ (S'.file g).writable = false)
      ∨ (g = f1 ∧ (S'.file g).pipe = pi ∧ (S'.file g).writable = true)
      ∨ (S'.file g = S.file g ∧ (S.file g).type = .pipe ∧ (S.file g).pipe ∈ pipePages S) :=
    fun g hg => by
      by_cases h0 : g = f0
      · grind
      by_cases h1 : g = f1
      · grind
      · have hsame := hother g h0 h1
        rw [hsame] at hg
        exact .inr (.inr ⟨hsame, hg, mem_pipePages.mpr ⟨g, hg, rfl⟩⟩)
  have hsamere : ∀ g, (S'.file g).ref = (S.file g).ref := fun g => by grind
  have hends : ∀ b, ∃ e, (S'.file e).type = .pipe ∧ (S'.file e).pipe = pi ∧ (S'.file e).writable = b :=
    fun b => by grind
  refine ⟨fun g => (hsamere g).trans (h.count g), fun g hg => ?_, fun a b ha hb hp hw => ?_,
    fun g hg => ?_, fun g hg hne' => ?_⟩
  · rw [hsamere] at hg
    have h0 : g ≠ f0 := fun hc => href.1 (hc ▸ hg)
    have h1 : g ≠ f1 := fun hc => href.2 (hc ▸ hg)
    rw [hother g h0 h1]
    exact h.idle g hg
  · rcases hcases a ha with ⟨ra, pa, wa⟩ | ⟨ra, pa, wa⟩ | ⟨sa, ta, pa⟩ <;>
      rcases hcases b hb with ⟨rb, pb, wb⟩ | ⟨rb, pb, wb⟩ | ⟨sb, tb, pb⟩
    · rw [ra, rb]
    · rw [wa, wb] at hw
      cases hw
    · grind
    · rw [wa, wb] at hw
      cases hw
    · rw [ra, rb]
    · grind
    · grind
    · grind
    · rw [sa, sb] at hp hw
      exact h.unique a b ta tb hp hw
  · rcases hcases g hg with ⟨-, hp, -⟩ | ⟨-, hp, -⟩ | ⟨hs, ht, hp⟩
    · rw [hp]
      exact hopen _
    · rw [hp]
      exact hopen _
    · rw [hs, hword _ hp]
      exact h.opened g ht
  · rcases hcases g hg with ⟨-, hp, -⟩ | ⟨-, hp, -⟩ | ⟨hs, ht, hp⟩
    · rw [hp]
      exact hends _
    · rw [hp]
      exact hends _
    · rw [hs, hword _ hp] at hne'
      obtain ⟨e, he, hpe, hwe⟩ := h.shut g ht hne'
      grind

/-- Files in hand are closed one by one. -/
theorem pipeallocBad_ok {l : List (Fin NFILE)} : ∀ {S : KSys np}, FileInv S m (l ++ hand) →
    (∀ q ≠ p, ∀ fd, m (q, fd) = (S.proc q).ofile fd) →
    Custody M.IsPage S.kmem.toStore (pipePages S).val →
    ∃ S', pipeallocBad M S l = .ok S' ∧ S'.proc = S.proc ∧ FileInv S' m hand ∧ FileStep S p S' := by
  induction l with
  | nil =>
    intro S h _ _
    exact ⟨S, rfl, rfl, h, .refl S p⟩
  | cons f l ih =>
    intro S h hm hown
    obtain ⟨S₁, hrun₁, hproc₁, hinv₁, hstep₁⟩ := fileclose_ok (M := M) (p := p) h hm hown
    obtain ⟨S', hrun', hproc', hinv', hstep'⟩ := ih hinv₁
      (fun q hq fd => by rw [hproc₁]; exact hm q hq fd) (hown.moves hstep₁.moves)
    refine ⟨S', ?_, hproc'.trans hproc₁, hinv', hstep₁.trans hstep'⟩
    rw [pipeallocBad, hrun₁, ok_bind, hrun']

/-- The page of a new pipe, and its two files. -/
def newPipe (S : KSys np) (k : Kmem) (pi : Nat) (f0 f1 : Fin NFILE) : KSys np :=
  let S := ((S.setMem k).setPipeWord pi readopenOff 1).setPipeWord pi writeopenOff 1
  let S := (S.setPipeWord pi 540 0).setPipeWord pi 536 0
  let S := S.setFile f0
    { S.file f0 with type := .pipe, readable := true, writable := false, pipe := pi }
  S.setFile f1 { S.file f1 with type := .pipe, readable := false, writable := true, pipe := pi }

theorem newPipe_ok {k : Kmem} (h : FileInv S m hand) (hne : f0 ≠ f1)
    (href : (S.file f0).ref ≠ 0 ∧ (S.file f1).ref ≠ 0)
    (htype : (S.file f0).type ≠ .pipe ∧ (S.file f1).type ≠ .pipe)
    (hheld : ∀ q ≠ p, ∀ fd g, (S.proc q).ofile fd = some g → g ≠ f0 ∧ g ≠ f1)
    (hown : Custody M.IsPage S.kmem.toStore (pipePages S).val)
    (hm : Moves S.kmem.toStore 0 k.toStore {pi}) :
    FileInv (newPipe S k pi f0 f1) m hand ∧ FileStep S p (newPipe S k pi f0 f1) := by
  obtain ⟨hpi, -⟩ := Custody.fresh hown hm
  have hcell : ∀ pj ∈ pipePages S, k.cell pj = S.kmem.cell pj := fun pj hj =>
    hm.frame pj (Multiset.notMem_zero pj) (hown.notMem_free hj)
  have hf0 : (newPipe S k pi f0 f1).file f0 = { S.file f0 with
      type := .pipe, readable := true, writable := false, pipe := pi } := by
    rw [newPipe, setFile_ne _ hne, setFile_self]
    rfl
  have hf1 : (newPipe S k pi f0 f1).file f1 = { S.file f1 with
      type := .pipe, readable := false, writable := true, pipe := pi } := by
    simp only [newPipe, setFile_self, setFile_ne _ hne.symm]
    rfl
  have hother : ∀ g, g ≠ f0 → g ≠ f1 → (newPipe S k pi f0 f1).file g = S.file g := fun g h0 h1 => by
    simp only [newPipe, setFile_ne _ h0, setFile_ne _ h1]
    rfl
  have hopen : ∀ b, (newPipe S k pi f0 f1).pipeWord pi (endOff b) ≠ 0 := fun b => by
    let T := ((S.setMem k).setPipeWord pi (endOff false) 1).setPipeWord pi (endOff true) 1
    have hT : (newPipe S k pi f0 f1).pipeWord pi (endOff b)
        = ((T.setPipeWord pi 540 0).setPipeWord pi 536 0).pipeWord pi (endOff b) := rfl
    rw [hT, pipeWord_set_off _ _ _ (by cases b <;> decide), pipeWord_set_off _ _ _ (by cases b <;> decide)]
    cases b with
    | true => rw [pipeWord_set_self _ _ 1 true (by decide)]; decide
    | false =>
      rw [pipeWord_set_end _ _ _ (by decide), pipeWord_set_self _ _ 1 false (by decide)]
      decide
  have hword : ∀ pj ∈ pipePages S, ∀ off,
      (newPipe S k pi f0 f1).pipeWord pj off = S.pipeWord pj off := fun pj hj off => by
    have hne' : pj ≠ pi := fun hc => hpi (hc ▸ hj)
    let T := ((S.setMem k).setPipeWord pi readopenOff 1).setPipeWord pi writeopenOff 1
    have hT : (newPipe S k pi f0 f1).pipeWord pj off
        = ((T.setPipeWord pi 540 0).setPipeWord pi 536 0).pipeWord pj off := rfl
    rw [hT, pipeWord_set_page _ hne', pipeWord_set_page _ hne', pipeWord_set_page _ hne',
      pipeWord_set_page _ hne']
    exact congrArg (fun v : Page => v.word 4 off) (hcell pj hj)
  have hpages : pipePages (newPipe S k pi f0 f1) = insert pi (pipePages S) := by
    ext y
    rw [mem_insert, mem_pipePages, mem_pipePages]
    grind
  refine ⟨h.newPipe htype hf0 hf1 hother hpi hopen hword href, fun _ _ => rfl, rfl, rfl, rfl, ?_,
    fun q hq fd g hg => ?_⟩
  · have hself : pi ∈ ({pi} : Multiset Nat) := Multiset.mem_singleton_self pi
    have hst : Stores k {pi} (newPipe S k pi f0 f1).kmem :=
      (((Stores.setPage hself _).trans (.setPage hself _)).trans (.setPage hself _)).trans
        (.setPage hself _)
    rw [hpages, insert_val_of_notMem hpi, ← Multiset.singleton_add]
    exact ((hm.trans hst.moves).add _).of_eq (zero_add _) rfl
  · grind

/-- `pipealloc`: two files in hand, or nothing. -/
theorem pipealloc_ok (h : FileInv S (fds S) [])
    (hown : Custody M.IsPage S.kmem.toStore (pipePages S).val) (p : Fin np) :
    ∃ r S', pipealloc M S = .ok (r, S') ∧ S'.proc = S.proc ∧ FileStep S p S'
      ∧ FileInv S' (fds S) (r.elim [] fun fs => [fs.1, fs.2]) := by
  unfold pipealloc
  cases h0 : filealloc S with
  | none => exact ⟨none, S, rfl, rfl, .refl S p, h⟩
  | some r =>
    obtain ⟨f0, S₁⟩ := r
    obtain ⟨href0, hS₁, hinv₁⟩ := filealloc_ok h h0
    have hstep₁ : FileStep S p S₁ := hS₁ ▸ .setRef S p f0 1
    have hproc₁ : S₁.proc = S.proc := by rw [hS₁]; rfl
    have hown₁ := hown.moves hstep₁.moves
    have hfds₁ : ∀ q ≠ p, ∀ fd, fds S (q, fd) = (S₁.proc q).ofile fd := fun q _ fd => by
      rw [hproc₁]
      rfl
    simp only
    cases h1 : filealloc S₁ with
    | none =>
      obtain ⟨S', hrun, hproc, hinv, hstep⟩ := pipeallocBad_ok (M := M) (p := p)
        (show FileInv S₁ (fds S) ([f0] ++ []) from hinv₁) hfds₁ hown₁
      refine ⟨none, S', ?_, hproc.trans hproc₁, hstep₁.trans hstep, hinv⟩
      simp only [hrun, ok_bind]
    | some r =>
      obtain ⟨f1, S₂⟩ := r
      obtain ⟨href1, hS₂, hinv₂⟩ := filealloc_ok hinv₁ h1
      have hstep₂ : FileStep S p S₂ := hstep₁.trans (hS₂ ▸ .setRef S₁ p f1 1)
      have hproc₂ : S₂.proc = S.proc := by rw [hS₂, ← hproc₁]; rfl
      have hown₂ := hown.moves hstep₂.moves
      have hne : f0 ≠ f1 := fun hc => by simp_all
      have hinv₂' := hinv₂.perm (List.Perm.swap f0 f1 [])
      simp only
      rcases kalloc_cases S₂.kmem with ⟨k, he, hk⟩ | ⟨pi, k, he, hm, -⟩
      · rw [he]
        have hinv₃ : FileInv (S₂.setMem k) (fds S) ([f0, f1] ++ []) := hinv₂'.of_same
          ⟨fun _ => rfl, fun _ => rfl, fun _ => rfl, fun g _ b => by
            rw [KSys.pipeWord, setMem_kmem, hk]; rfl⟩ hinv₂'.count hinv₂'.idle
        have hstep₃ : FileStep S₂ p (S₂.setMem k) :=
          ⟨fun _ _ => rfl, rfl, rfl, rfl, (by rw [setMem_kmem, hk]; exact .refl ..),
            fun _ _ _ _ _ => ⟨rfl, rfl⟩⟩
        obtain ⟨S', hrun, hproc, hinv, hstep⟩ := pipeallocBad_ok (M := M) (p := p)
          hinv₃ (fun q _ fd => by rw [setMem_proc, hproc₂]; rfl)
          (hown₂.moves hstep₃.moves)
        refine ⟨none, S', ?_, hproc.trans hproc₂, hstep₂.trans (hstep₃.trans hstep), hinv⟩
        simp only [hrun, ok_bind]
      · rw [he]
        have href₂ : (S₂.file f0).ref ≠ 0 ∧ (S₂.file f1).ref ≠ 0 := by
          simp [hS₂, setFile_self, setFile_ne _ hne, hS₁]
        have htype : (S₂.file f0).type ≠ .pipe ∧ (S₂.file f1).type ≠ .pipe := by
          have ht1 := hinv₁.idle f1 href1
          have ht0 := h.idle f0 href0
          simp_all [hS₂, setFile_self, setFile_ne _ hne, hS₁, ht0, ht1]
        have hheld : ∀ q ≠ p, ∀ fd g, (S₂.proc q).ofile fd = some g → g ≠ f0 ∧ g ≠ f1 :=
          fun q _ fd g hg => by
            rw [hproc₂] at hg
            have hpos : 0 < tally (fds S) g := tally_pos.mpr ⟨(q, fd), hg⟩
            have hc := h.count g
            refine ⟨fun hc0 => ?_, fun hc1 => ?_⟩
            · rw [hc0] at hpos hc
              omega
            · have hr1 : (S.file f1).ref = 0 := by
                rwa [hS₁, setFile_ne _ hne.symm] at href1
              rw [hc1] at hpos hc
              omega
        obtain ⟨hinv, hstep⟩ := newPipe_ok (p := p) hinv₂' hne href₂ htype hheld hown₂ hm
        exact ⟨some (f0, f1), newPipe S₂ k pi f0 f1, rfl, hproc₂, hstep₂.trans hstep, hinv⟩

end Create

end Xv6.Vm
