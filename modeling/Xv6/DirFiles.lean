import Xv6.DirCalls

/-!
# The calls that move references

`open`, `chdir`, `close`, `dup`, `fork` and `exit` change who holds a
reference: a file or a working directory takes over the reference of the
call, or leaves one to it that `iput` gives back. `Inv.setFile` and
`Inv.setCwd` state the exchange once.
-/

namespace Xv6

open Function List

open ByteVec (Byte)
open Tally NameSys

variable {np : Nat} {strict : Prop}

section Exchange

variable {S : NameSys np} {l l' : List Nat} {pend : Nat → Nat} {x : Fin np × Fin NOFILE}
  {f : Fin NFILE} {y : File}

/-- The inode a file holds. -/
def File.held (x : File) : Option Nat := if 0 < x.ref then x.ip else none

theorem fileIp_setFile (S : NameSys np) (f : Fin NFILE) (y : File) :
    (S.setFile f y).fileIp = update S.fileIp f y.held := by
  funext g
  show File.held (update S.file f y g) = _
  by_cases hg : g = f
  · grind
  · rw [update_of_ne hg, update_of_ne hg]
    rfl

/-- A descriptor and a file change together; the inode the file held and
the one it holds now are exchanged with the call. -/
theorem Inv.setFile {v : Option (Fin NFILE)} (h : Inv strict S l pend)
    (hfiles : ∀ g, (update S.file f y g).ref = tally (update S.ofile x v) g)
    (hcount : ∀ j, (if y.held = some j then 1 else 0) + l'.count j
      = (if S.fileIp f = some j then 1 else 0) + l.count j)
    (hheld : ∀ j, y.held = some j → (S.node j).type ≠ none) :
    Inv strict ((S.setOfile x v).setFile f y) l' pend := by
  have hip : ((S.setOfile x v).setFile f y).fileIp = update S.fileIp f y.held :=
    fileIp_setFile (S.setOfile x v) f y
  refine h.hand rfl rfl rfl rfl (fun j => ?_) (fun j hj => ?_) hfiles
  · have htally := tally_update S.fileIp f y.held j
    have hj := hcount j
    show tally S.cwd j + tally ((S.setOfile x v).setFile f y).fileIp j + _ = tally S.cwd j + _ + _
    rw [hip]
    omega
  · have hj' : 0 < tally S.cwd j + tally ((S.setOfile x v).setFile f y).fileIp j := hj
    rw [hip] at hj'
    have htally := tally_update S.fileIp f y.held j
    by_cases hy : y.held = some j
    · exact .inr (hheld j hy)
    · rw [if_neg hy] at htally
      refine .inl ?_
      show 0 < tally S.cwd j + tally S.fileIp j
      omega

/-- The same for a working directory. -/
theorem Inv.setCwd {p : Fin np} {c : Option Nat} (h : Inv strict S l pend)
    (hcount : ∀ j, (if c = some j then 1 else 0) + l'.count j
      = (if S.cwd p = some j then 1 else 0) + l.count j)
    (hheld : ∀ j, c = some j → (S.node j).type ≠ none) : Inv strict (S.setCwd p c) l' pend := by
  refine h.hand rfl rfl rfl rfl (fun j => ?_) (fun j hj => ?_) h.refs.files
  · have htally := tally_update S.cwd p c j
    have hj := hcount j
    show tally (update S.cwd p c) j + tally S.fileIp j + _ = tally S.cwd j + tally S.fileIp j + _
    omega
  · have hj' : 0 < tally (update S.cwd p c) j + tally S.fileIp j := hj
    have htally := tally_update S.cwd p c j
    by_cases hc : c = some j
    · exact .inr (hheld j hc)
    · rw [if_neg hc] at htally
      refine .inl ?_
      show 0 < tally S.cwd j + tally S.fileIp j
      omega

/-- The count of a file follows its descriptors. -/
theorem Inv.files_update {v : Option (Fin NFILE)} (h : Inv strict S l pend)
    (hold : ∀ g ≠ f, S.ofile x ≠ some g) (hnew : ∀ g ≠ f, v ≠ some g)
    (hy : y.ref + (if S.ofile x = some f then 1 else 0)
      = (S.file f).ref + if v = some f then 1 else 0) (g : Fin NFILE) :
    (update S.file f y g).ref = tally (update S.ofile x v) g := by
  have htally := tally_update S.ofile x v g
  have hg := h.refs.files g
  by_cases hgf : g = f
  · grind
  · grind

/-- One more descriptor for the file. -/
theorem Inv.files_add (h : Inv strict S l pend) (hx : S.ofile x = none)
    (hy : y.ref = (S.file f).ref + 1) (g : Fin NFILE) :
    (update S.file f y g).ref = tally (update S.ofile x (some f)) g := by
  refine h.files_update (fun g _ => ?_) (fun g hg hc => hg (Option.some.inj hc).symm) ?_ g
  · rw [hx]
    exact nofun
  · rw [hx, if_pos rfl]
    exact hy

/-- One descriptor less. -/
theorem Inv.files_drop (h : Inv strict S l pend) (hx : S.ofile x = some f)
    (hy : y.ref + 1 = (S.file f).ref) (g : Fin NFILE) :
    (update S.file f y g).ref = tally (update S.ofile x none) g := by
  refine h.files_update (fun g hg hc => ?_) (fun g _ hc => by cases hc) ?_ g
  · grind
  · rw [hx, if_pos rfl]
    exact hy

theorem Inv.held_file {j : Nat} (h : Inv strict S l pend) (hj : S.fileIp f = some j) :
    (S.node j).type ≠ none :=
  h.refs.held j (Nat.lt_of_lt_of_le (tally_pos.mpr ⟨f, hj⟩) (Nat.le_add_left ..))

/-- `filedup` for a new descriptor. -/
theorem Inv.filedup (h : Inv strict S l pend) (hx : S.ofile x = none)
    (hf : ¬(S.file f).ref < 1) :
    Inv strict ((S.setOfile x (some f)).setFile f ⟨(S.file f).ref + 1, (S.file f).ip⟩) l pend := by
  have hheld : (⟨(S.file f).ref + 1, (S.file f).ip⟩ : File).held = S.fileIp f := by
    rw [File.held, if_pos (Nat.succ_pos _), fileIp, if_pos (by omega)]
  exact h.setFile (h.files_add hx rfl) (fun j => by rw [hheld]) fun j hj =>
    h.held_file (hheld ▸ hj)

/-- `fileclose` of a descriptor's file. -/
theorem Inv.fileclose (h : Inv strict S l pend) (hx : S.ofile x = some f) :
    Ends (fun S' => Inv strict S' l pend ∧ S'.cwd = S.cwd ∧ S'.ofile = update S.ofile x none)
      (fun e => strict → e ≠ .noType) ((S.setOfile x none).fileclose f) := by
  have hpos : 0 < (S.file f).ref := by
    rw [h.refs.files f]
    exact tally_pos.mpr ⟨x, hx⟩
  have hip : S.fileIp f = (S.file f).ip := if_pos hpos
  unfold NameSys.fileclose
  rw [show (S.setOfile x none).file = S.file from rfl, if_neg (by omega)]
  by_cases hlast : (S.file f).ref - 1 > 0
  · rw [if_pos hlast]
    have hheld : (⟨(S.file f).ref - 1, (S.file f).ip⟩ : File).held = S.fileIp f := by
      rw [File.held, if_pos hlast, hip]
    have h₁ : Inv strict ((S.setOfile x none).setFile f ⟨(S.file f).ref - 1, (S.file f).ip⟩) l
        pend := by
      refine h.setFile (h.files_drop hx (Nat.sub_add_cancel hpos)) (fun j => by rw [hheld])
        fun j hj => h.held_file (hheld ▸ hj)
    exact ⟨h₁, rfl, rfl⟩
  · rw [if_neg hlast]
    have hdrop := h.files_drop (y := ⟨0, none⟩) hx (by show 0 + 1 = _; omega)
    cases hfip : (S.file f).ip with
    | none =>
      refine ⟨h.setFile hdrop (fun j => ?_) (fun j hj => by cases hj), rfl, rfl⟩
      rw [hip, hfip]
      rfl
    | some ip =>
      have h₁ : Inv strict ((S.setOfile x none).setFile f ⟨0, none⟩) (ip :: l) pend := by
        refine h.setFile hdrop (fun j => ?_) fun j hj => by cases hj
        rw [hip, hfip, count_cons]
        show 0 + (l.count j + if ip == j then 1 else 0) = _
        grind
      have hp := iput_sameProcs ((S.setOfile x none).setFile f ⟨0, none⟩) ip
      exact ⟨h₁.iput, hp.cwd, hp.ofile⟩

/-- `fileclose` does not look at the descriptors. -/
theorem fileclose_setOfile (S : NameSys np) (x : Fin np × Fin NOFILE) (f : Fin NFILE) {α : Type}
    (k : NameSys np → Except NamePanic α) :
    (S.fileclose f >>= fun S' => k (S'.setOfile x none))
      = ((S.setOfile x none).fileclose f >>= k) := by
  have hput : ∀ (T : NameSys np) ip, (T.iput ip).setOfile x none = (T.setOfile x none).iput ip := by
    intro T ip
    unfold NameSys.iput
    show _ = if T.ref ip = 1 ∧ T.valid ip = true ∧ (T.node ip).nlink = 0 then _ else _
    split <;> rfl
  have hfile : (S.setOfile x none).file = S.file := rfl
  unfold NameSys.fileclose
  rw [hfile]
  split
  · rfl
  · split
    · rfl
    · split
      · rfl
      · rename_i ip _
        show k (((S.setFile f ⟨0, none⟩).iput ip).setOfile x none) = _
        rw [hput]
        rfl

end Exchange

/-! ## The calls -/

/-- A process slot that is not in use has no open files. -/
def Idle (S : NameSys np) : Prop := ∀ q, S.cwd q = none → ∀ fd, S.ofile (q, fd) = none

/-- The invariant between calls. -/
structure Between (strict : Prop) (S : NameSys np) : Prop where
  inv : Inv strict S [] fun _ => 0
  idle : Idle S

section Calls

variable {S : NameSys np} {p : Fin np}

theorem Idle.of_same {S' : NameSys np} (h : Idle S) (hcwd : S'.cwd = S.cwd)
    (hofile : S'.ofile = S.ofile) : Idle S' := by
  unfold Idle
  rw [hcwd, hofile]
  exact h

theorem Done.between {S' : NameSys np} (h : Done strict S S') (hidle : Idle S) :
    Between strict S' := ⟨h.inv, hidle.of_same h.procs.cwd h.procs.ofile⟩

/-- A new descriptor of a process in use. -/
theorem Idle.of_update {S' : NameSys np} (h : Idle S) (hp : S.cwd p ≠ none) (hcwd : S'.cwd = S.cwd)
    {fd : Fin NOFILE} {v : Option (Fin NFILE)} (hofile : S'.ofile = update S.ofile (p, fd) v) :
    Idle S' := fun q hq fd' => by
  rw [hcwd] at hq
  have hne : (q, fd') ≠ (p, fd) := by grind
  rw [hofile, update_of_ne hne]
  exact h q hq fd'

/-- A new working directory of one process. -/
theorem Idle.of_cwd {S' : NameSys np} (h : Idle S) {c : Nat}
    (hcwd : S'.cwd = update S.cwd p (some c))
    (hofile : ∀ r ≠ p, ∀ fd, S'.ofile (r, fd) = S.ofile (r, fd)) : Idle S' := fun q hq fd => by
  rw [hcwd] at hq
  have hqp : q ≠ p := by grind
  rw [update_of_ne hqp] at hq
  rw [hofile q hqp]
  exact h q hq fd

/-- `fdalloc` takes an unused descriptor. -/
theorem fdalloc_cases (S : NameSys np) (p : Fin np) (f : Fin NFILE) :
    S.fdalloc p f = none ∨ ∃ fd, S.fdalloc p f = some (fd, S.setOfile (p, fd) (some f))
      ∧ S.ofile (p, fd) = none := by
  unfold NameSys.fdalloc
  split
  · exact .inl rfl
  · grind

theorem filealloc_cases (S : NameSys np) :
    S.filealloc = none ∨ ∃ f, S.filealloc = some (f, S.setFile f ⟨1, none⟩)
      ∧ (S.file f).ref = 0 := by
  unfold NameSys.filealloc
  split
  · exact .inl rfl
  · grind

theorem setFile_setFile (S : NameSys np) (f : Fin NFILE) (a b : File) :
    (S.setFile f a).setFile f b = S.setFile f b := by
  unfold NameSys.setFile
  simp only [update_idem]

theorem Inv.openFile {ip : Nat} (h : Inv strict S [ip] fun _ => 0) (hidle : Idle S)
    (hp : S.cwd p ≠ none) (ha : (S.node ip).type ≠ none) :
    Ends (fun r => Between strict r.2) (fun e => strict → e ≠ .noType) (S.openFile p ip) := by
  have hput : Between strict (S.iput ip) :=
    (show Done strict S (S.iput ip) from ⟨h.iput, iput_sameProcs S ip⟩).between hidle
  unfold NameSys.openFile
  split
  · exact hput
  · rcases filealloc_cases S with hnone | ⟨f, hsome, href⟩
    · rw [hnone]
      exact hput
    · rw [hsome]
      dsimp only
      have hold : S.fileIp f = none := if_neg (by omega)
      rcases fdalloc_cases (S.setFile f ⟨1, none⟩) p f with hnone | ⟨fd, hfd, hfree⟩
      · -- the file that was allocated is given back
        rw [hnone]
        have hclose : (S.setFile f ⟨1, none⟩).fileclose f = .ok (S.setFile f ⟨0, none⟩) := by
          have hself : (S.setFile f ⟨1, none⟩).file f = ⟨1, none⟩ := update_self ..
          unfold NameSys.fileclose
          simp [hself, setFile_setFile]
        have hip : (S.setFile f ⟨0, none⟩).fileIp = S.fileIp := by
          rw [fileIp_setFile, show (⟨0, none⟩ : File).held = S.fileIp f from hold.symm,
            update_eq_self]
        have hholders : ∀ j, (S.setFile f ⟨0, none⟩).holders j = S.holders j := fun j => by
          show tally S.cwd j + tally (S.setFile f ⟨0, none⟩).fileIp j = _
          rw [hip]
          rfl
        have h₁ : Inv strict (S.setFile f ⟨0, none⟩) [ip] fun _ => 0 := by
          refine h.hand rfl rfl rfl rfl (fun j => by rw [hholders])
            (fun j hj => .inl (hholders j ▸ hj)) fun g => ?_
          show (update S.file f ⟨0, none⟩ g).ref = tally S.ofile g
          rw [← h.refs.files g]
          grind
        have hsame := iput_sameProcs (S.setFile f ⟨0, none⟩) ip
        rw [hclose]
        exact ⟨h₁.iput, hidle.of_same hsame.cwd hsame.ofile⟩
      · rw [hfd]
        have hfinal : ((S.setFile f ⟨1, none⟩).setOfile (p, fd) (some f)).setFile f ⟨1, some ip⟩
            = (S.setOfile (p, fd) (some f)).setFile f ⟨1, some ip⟩ :=
          setFile_setFile (S.setOfile (p, fd) (some f)) f _ _
        show Between strict (((S.setFile f ⟨1, none⟩).setOfile (p, fd) (some f)).setFile f
          ⟨1, some ip⟩)
        rw [hfinal]
        refine ⟨h.setFile (h.files_add hfree ?_) (fun j => ?_) fun j hj => ?_,
          hidle.of_update hp rfl rfl⟩
        · rw [href]
        · rw [hold, count_cons, count_nil]
          show (if some ip = some j then 1 else 0) + 0 = 0 + (0 + if ip == j then 1 else 0)
          simp
        · cases show some ip = some j from hj
          exact ha

theorem Between.sysOpen (h : Between strict S) (hp : S.cwd p ≠ none) {path : List Byte}
    {omode : Nat} (hlive : omode &&& O_CREATE ≠ 0 → S.MakesLive p path .file) :
    Ends (fun r => Between strict r.2) (fun e => strict → e ≠ .noType)
      (S.sysOpen p path omode) := by
  unfold NameSys.sysOpen
  split
  · rename_i hcreate
    refine (h.inv.create (hlive hcreate) 0).bind fun r hr => ?_
    obtain ⟨r, S₁⟩ := r
    cases r with
    | none => exact Done.between hr h.idle
    | some ip =>
      exact hr.inv.openFile (h.idle.of_same hr.procs.cwd hr.procs.ofile)
        (by rw [hr.procs.cwd]; exact hp) hr.alloc
  · refine (h.inv.namex p path false).bind fun r hr => ?_
    obtain ⟨r, S₁⟩ := r
    obtain ⟨-, hlook⟩ := hr
    cases r with
    | none => exact (show Done strict S S₁ from ⟨hlook.inv, hlook.procs⟩).between h.idle
    | some t =>
      obtain ⟨ip, nm⟩ := t
      refine (hlook.inv.ilock fun hs => hlook.alloc hs rfl).bind fun S₂ hlock => ?_
      obtain ⟨h₂, hp₂, hn₂, ha, -⟩ := hlock
      have hsame := hlook.procs.trans hp₂
      split
      · exact (show Done strict S (S₂.iput ip) from
          ⟨h₂.iput, hsame.trans (iput_sameProcs S₂ ip)⟩).between h.idle
      · exact h₂.openFile (h.idle.of_same hsame.cwd hsame.ofile)
          (by rw [hsame.cwd]; exact hp) (by rw [hn₂]; exact ha)

/-- `iput` does not look at the working directories. -/
theorem iput_setCwd (S : NameSys np) (i : Nat) (c : Option Nat) :
    (S.iput i).setCwd p c = (S.setCwd p c).iput i := by
  unfold NameSys.iput
  show _ = if S.ref i = 1 ∧ S.valid i = true ∧ (S.node i).nlink = 0 then _ else _
  split <;> rfl

theorem Between.sysChdir (h : Between strict S) {path : List Byte} :
    Ends (fun r => Between strict r.2) (fun e => strict → e ≠ .noType) (S.sysChdir p path) := by
  refine (h.inv.namex p path false).bind fun r hr => ?_
  obtain ⟨r, S₁⟩ := r
  obtain ⟨-, hlook⟩ := hr
  cases r with
  | none => exact (show Done strict S S₁ from ⟨hlook.inv, hlook.procs⟩).between h.idle
  | some t =>
    obtain ⟨ip, nm⟩ := t
    refine (hlook.inv.ilock fun hs => hlook.alloc hs rfl).bind fun S₂ hlock => ?_
    obtain ⟨h₂, hp₂, hn₂, ha, -⟩ := hlock
    have hsame := hlook.procs.trans hp₂
    have hidle := h.idle.of_same hsame.cwd hsame.ofile
    split
    · exact (show Done strict S (S₂.iput ip) from
        ⟨h₂.iput, hsame.trans (iput_sameProcs S₂ ip)⟩).between h.idle
    · cases hc : S₂.cwd p with
      | none => exact fun _ => nofun
      | some c =>
        show Between strict ((S₂.iput c).setCwd p (some ip))
        rw [iput_setCwd]
        have h₃ : Inv strict (S₂.setCwd p (some ip)) [c] fun _ => 0 := by
          refine h₂.setCwd (fun j => ?_) fun j hj => ?_
          · grind
          · grind
        have hput := iput_sameProcs (S₂.setCwd p (some ip)) c
        exact ⟨h₃.iput, hidle.of_cwd hput.cwd fun r _ fd => by rw [hput.ofile]; rfl⟩

theorem Between.sysClose (h : Between strict S) (hp : S.cwd p ≠ none) (fd : Fin NOFILE) :
    Ends (fun r => Between strict r.2) (fun e => strict → e ≠ .noType) (S.sysClose p fd) := by
  unfold NameSys.sysClose
  cases hf : S.ofile (p, fd) with
  | none => exact h
  | some f =>
    refine (h.inv.fileclose hf).bind fun S' hS' => ?_
    exact ⟨hS'.1, h.idle.of_update hp hS'.2.1 hS'.2.2⟩

theorem Between.sysDup (h : Between strict S) (hp : S.cwd p ≠ none) (fd : Fin NOFILE) :
    Ends (fun r => Between strict r.2) (fun e => strict → e ≠ .noType) (S.sysDup p fd) := by
  unfold NameSys.sysDup
  cases hf : S.ofile (p, fd) with
  | none => exact h
  | some f =>
    dsimp only
    rcases fdalloc_cases S p f with hnone | ⟨fd', hsome, hfree⟩
    · rw [hnone]
      exact h
    · rw [hsome]
      dsimp only
      unfold NameSys.filedup
      split
      · exact fun _ => nofun
      · rename_i hpos
        exact ⟨h.inv.filedup hfree hpos, h.idle.of_update hp rfl rfl⟩

/-- The loop of `exit`. -/
theorem Inv.exitFiles {fds : List (Fin NOFILE)} : ∀ {S : NameSys np},
    Inv strict S [] (fun _ => 0) →
    Ends (fun S' => Inv strict S' [] (fun _ => 0) ∧ S'.cwd = S.cwd
        ∧ (∀ y, S.ofile y = none → S'.ofile y = none) ∧ ∀ fd ∈ fds, S'.ofile (p, fd) = none)
      (fun e => strict → e ≠ .noType) (NameSys.exitFiles p fds S) := by
  induction fds with
  | nil =>
    intro S h
    exact ⟨h, rfl, fun _ hy => hy, fun _ hfd => absurd hfd not_mem_nil⟩
  | cons fd fds ih =>
    intro S h
    rw [NameSys.exitFiles]
    cases hf : S.ofile (p, fd) with
    | none =>
      grind
    | some f =>
      show Ends _ _ (S.fileclose f >>= fun S' => NameSys.exitFiles p fds (S'.setOfile (p, fd) none))
      rw [fileclose_setOfile]
      refine (h.fileclose hf).bind fun S₁ hS₁ => ?_
      obtain ⟨h₁, hc₁, ho₁⟩ := hS₁
      have hself : S₁.ofile (p, fd) = none := by rw [ho₁, update_self]
      have hback : ∀ y, S.ofile y = none → S₁.ofile y = none := fun y hy => by
        by_cases hyp : y = (p, fd)
        · rw [hyp]
          exact hself
        · simp_all
      refine (ih h₁).mono fun S' hS' => ?_
      obtain ⟨h₂, hc₂, hkeep, hnone⟩ := hS'
      exact ⟨h₂, hc₂.trans hc₁, fun y hy => hkeep y (hback y hy),
        forall_mem_cons.mpr ⟨hkeep _ hself, hnone⟩⟩

theorem Between.exit (h : Between strict S) :
    Ends (fun S' => Between strict S') (fun e => strict → e ≠ .noType) (S.exit p) := by
  refine (h.inv.exitFiles (p := p)).bind fun S₁ hS₁ => ?_
  obtain ⟨h₁, hc₁, hkeep, hnone⟩ := hS₁
  cases hc : S₁.cwd p with
  | none => exact fun _ => nofun
  | some c =>
    show Between strict ((S₁.iput c).setCwd p none)
    rw [iput_setCwd]
    have h₂ : Inv strict (S₁.setCwd p none) [c] fun _ => 0 := by
      refine h₁.setCwd (fun j => ?_) fun j hj => by cases hj
      grind
    have hput := iput_sameProcs (S₁.setCwd p none) c
    refine ⟨h₂.iput, fun q hq fd => ?_⟩
    rw [hput.cwd] at hq
    rw [hput.ofile]
    show S₁.ofile (q, fd) = none
    by_cases hqp : q = p
    · grind
    · have hother : (S₁.setCwd p none).cwd q = S₁.cwd q := update_of_ne hqp ..
      rw [hother, hc₁] at hq
      exact hkeep _ (h.idle q hq fd)

/-- The loop of `fork`. -/
theorem Inv.forkFiles {q : Fin np} {fds : List (Fin NOFILE)} :
    ∀ {S : NameSys np}, Inv strict S [] (fun _ => 0) → fds.Nodup →
      (∀ fd ∈ fds, S.ofile (q, fd) = none) →
      Ends (fun S' => Inv strict S' [] (fun _ => 0) ∧ S'.cwd = S.cwd ∧ S'.ref = S.ref
          ∧ S'.node = S.node ∧ ∀ r ≠ q, ∀ fd, S'.ofile (r, fd) = S.ofile (r, fd))
        (fun e => strict → e ≠ .noType) (NameSys.forkFiles p q fds S) := by
  induction fds with
  | nil =>
    intro S h _ _
    exact ⟨h, rfl, rfl, rfl, fun _ _ _ => rfl⟩
  | cons fd fds ih =>
    intro S h hnodup hfree
    rw [NameSys.forkFiles]
    obtain ⟨hfd, hnodup'⟩ := nodup_cons.mp hnodup
    obtain ⟨hfree0, hfree'⟩ := forall_mem_cons.mp hfree
    cases hf : S.ofile (p, fd) with
    | none => exact ih h hnodup' hfree'
    | some f =>
      dsimp only
      unfold NameSys.filedup
      split
      · exact fun _ => nofun
      · rename_i hpos
        have h₁ := h.filedup hfree0 hpos
        refine (ih h₁ hnodup' fun fd' hfd' => ?_).mono fun S' hS' => ?_
        · show update S.ofile (q, fd) (some f) (q, fd') = none
          grind
        · obtain ⟨h₂, hc₂, hr₂, hn₂, ho₂⟩ := hS'
          refine ⟨h₂, hc₂, hr₂, hn₂, fun r hr fd' => ?_⟩
          have hne : (r, fd') ≠ (q, fd) := fun heq => hr (Prod.mk.inj heq).1
          rw [ho₂ r hr]
          exact update_of_ne hne ..

theorem Between.fork (h : Between strict S) (q : Fin np) :
    Ends (fun S' => Between strict S') (fun e => strict → e ≠ .noType) (S.fork p q) := by
  unfold NameSys.fork
  cases hcp : S.cwd p with
  | none => exact fun _ => nofun
  | some c =>
    cases hcq : S.cwd q with
    | some _ => exact fun _ => nofun
    | none =>
      refine (h.inv.forkFiles (nodup_finRange _) fun fd _ => h.idle q hcq fd).bind
        fun S₁ hS₁ => ?_
      obtain ⟨h₁, hc₁, hr₁, hn₁, ho₁⟩ := hS₁
      have hheld : 0 < S₁.holders c :=
        Nat.lt_of_lt_of_le (tally_pos.mpr ⟨p, by rw [hc₁]; exact hcp⟩) (Nat.le_add_right ..)
      have href : 0 < S₁.ref c := by
        rw [h₁.refs.ref_eq]
        omega
      have h₂ : Inv strict ((S₁.idup c).setCwd q (some c)) [] fun _ => 0 := by
        refine (h₁.idup href).setCwd (fun j => ?_) fun j hj => ?_
        · show (if some c = some j then 1 else 0) + 0
            = (if S₁.cwd q = some j then 1 else 0) + [c].count j
          grind
        · cases hj
          exact h₁.refs.held c hheld
      refine ⟨h₂, h.idle.of_cwd (c := c) ?_ ho₁⟩
      show update S₁.cwd q (some c) = _
      rw [hc₁]

end Calls

end Xv6
