import Xv6.ExecStack

/-!
# The image `exec` commits to

Up to the stack `exec` does not look at its arguments: it fails whatever
they are, or it has the program loaded in zeroed memory with a guard page
and a stack page behind it (`Ready`). From there the arguments decide.
-/

namespace Xv6.Vm

open List Ends Nat

open ByteVec (Byte leNat leBytes)
open Transfer Radix Ranges

def elfhdr (content : List Byte) : Elfhdr := Elfhdr.decode (fileBytes content 0 elfhdrSize)

/-- The offsets at which `exec` looks for program headers. -/
def headersOf (content : List Byte) : List Nat :=
  headerOffs (elfhdr content).phnum (elfhdr content).phoff

/-- The end of `exec` before its commit, with the stack page at page
number `n`. -/
def finishStack (M : Machine) (k : Kmem) (pagetable n entry : Nat) (argv : List Nat) :
    Except KPanic (Option Image × Kmem) :=
  match pushStack pagetable (n * 4096) argv k ((n + 1) * 4096) with
  | (none, k) => execBad M k pagetable ((n + 1) * 4096)
  | (some sp, k) => .ok (some ⟨pagetable, (n + 1) * 4096, entry, sp⟩, k)

/-- A program of `sz` bytes is loaded, with a guard page and a stack page
behind it; only the arguments are missing. -/
structure Ready (M : Machine) (tf : Nat) (k : Kmem) (content : List Byte) (k' : Kmem) (t : Table)
    (pt sz : Nat) : Prop where
  accepted : Accepted content (headersOf content) sz
  holds : Holds M tf k' t pt (npg sz + 1 + 1) (loadImage content (headersOf content) fun _ => 0)
  moves : Moves k.toStore 0 k'.toStore (spacePages t (npg sz + 1 + 1))
  behind : ∀ va, npg sz * 4096 ≤ va → loadImage content (headersOf content) (fun _ => 0) va = 0
  user : AllUser t (npg sz)
  stack : UserPage t (npg sz + 1)
  guard : ¬UserPage t (npg sz)
  finish : ∀ argv, execImage M k tf content argv
    = finishStack M k' pt (npg sz + 1) (elfhdr content).entry argv

section Image

variable {M : Machine} {k : Kmem} {t : Table} {pt tf sz : Nat} {f : Nat → Byte}
  {content : List Byte}

theorem npg_mul (n : Nat) : npg (n * 4096) = n := by
  show (n * 4096 + 4095) / 4096 = n
  omega

/-- The two pages behind the program. -/
theorem execStack_cases (h : Holds M tf k t pt (npg sz) f) (hall : AllUser t (npg sz))
    (entry : Nat) :
    (∃ k', ∀ argv, execStack M k pt sz entry argv = .ok (none, k'))
      ∨ ∃ k' t', Holds M tf k' t' pt (npg sz + 1 + 1) f
        ∧ Moves k.toStore (spacePages t (npg sz)) k'.toStore (spacePages t' (npg sz + 1 + 1))
        ∧ AllUser t' (npg sz) ∧ UserPage t' (npg sz + 1) ∧ ¬UserPage t' (npg sz)
        ∧ ∀ argv, execStack M k pt sz entry argv = finishStack M k' pt (npg sz + 1) entry argv := by
  have hsz := h.size_lt
  have hround : PGROUNDUP sz = npg sz * 4096 := pgroundup_npg (by omega)
  have h₀ : Holds M tf k t pt (npg (npg sz * 4096)) f := by rwa [npg_mul]
  obtain ⟨r, k₁, t₁, hrun₁, hre₁, -⟩ := uvmalloc_reshapes (npg sz * 4096)
    (npg sz * 4096 + 2 * PGSIZE) h₀.rep h₀.owned h₀.name h₀.space
  rcases eq_or_ne r 0 with rfl | hr
  · -- no memory for the two pages
    have hown₁ := h₀.owned.moves hre₁.moves
    obtain ⟨k', hbad, -⟩ := execBad_ok hre₁.rep hown₁ (hre₁.name.trans h₀.name) hre₁.space
    refine .inl ⟨k', fun argv => ?_⟩
    simp only [execStack, hround, hrun₁, ok_bind, if_true]
    exact hbad
  obtain ⟨hmax, t₁, h₁, hm₁, hold, hnew⟩ := h₀.uvmalloc hrun₁ hr
  have hr₁ : r = (npg sz + 1 + 1) * 4096 := by grind
  have hnpg : npg r = npg sz + 1 + 1 := by rw [hr₁, npg_mul]
  rw [hnpg] at h₁
  rw [npg_mul, hnpg] at hm₁ hnew
  rw [npg_mul] at hold
  obtain ⟨k₂, t₂, hrun₂, h₂, hm₂, hkeep, hguard⟩ := h₁.uvmclear (npg sz) (by omega)
  refine .inr ⟨k₂, t₂, h₂, hm₁.trans hm₂, fun key hkey => ?_, ?_, hguard, fun argv => ?_⟩
  · rw [hkeep _ (by omega) hkey.ne, hold key hkey]
    exact hall key hkey
  · rw [UserPage, hkeep _ (by omega) (by omega)]
    exact hnew _ (by omega) (by omega)
  · have hclear : r - 2 * PGSIZE = npg sz * 4096 := by omega
    have hbase : r - PGSIZE = (npg sz + 1) * 4096 := by grind
    simp only [execStack, hround, hrun₁, ok_bind, hr, if_false, hclear, hrun₂, hbase]
    rw [hr₁]
    rfl

/-- `exec` with a file that has a header. -/
theorem execImage_eq (M : Machine) (k : Kmem) (tf : Nat) (hmagic : (elfhdr content).magic = ELF_MAGIC)
    (hhead : (readi content 0 elfhdrSize).length = elfhdrSize) (argv : List Nat) :
    execImage M k tf content argv = procPagetable M k tf >>= fun r =>
      match r.1 with
      | none => .ok (none, r.2)
      | some pagetable =>
        loadLoop M pagetable content (elfhdr content).phnum r.2 (elfhdr content).phoff 0 >>=
          fun l => if l.1 then execStack M l.2.2 pagetable l.2.1 (elfhdr content).entry argv
            else execBad M l.2.2 pagetable l.2.1 := by
  have hbytes := (readi_full (by decide) hhead).2
  have helf : Elfhdr.decode (readi content 0 elfhdrSize) = elfhdr content := by rw [hbytes, elfhdr]
  simp only [execImage, helf, hhead, hmagic, ne_eq, not_true_eq_false, or_self, if_false] <;> rfl

/-- `exec` up to its arguments. -/
theorem execImage_cases (hown : Custody M.IsPage k.toStore 0) (htf : tf < 2 ^ 64)
    (hlen : content.length < 2 ^ 32) :
    (∃ k', ∀ argv, execImage M k tf content argv = .ok (none, k'))
      ∨ ∃ k' t pt sz, Ready M tf k content k' t pt sz := by
  rcases ne_or_eq (readi content 0 elfhdrSize).length elfhdrSize with hs | hhead
  · exact .inl ⟨k, fun argv => if_pos (.inl hs)⟩
  rcases ne_or_eq (elfhdr content).magic ELF_MAGIC with hm | hmagic
  · refine .inl ⟨k, fun argv => if_pos (.inr ?_)⟩
    exact hm
  have heq := execImage_eq M k tf hmagic hhead
  obtain ⟨r, k₁, hrun₁, ⟨rfl, -⟩ | ⟨pt, -, rfl, -⟩⟩ := procPagetable_ok hown htf
  · simp [heq, hrun₁, ok_bind]
  obtain ⟨t₁, h₁, hm₁⟩ := procPagetable_holds hown htf hrun₁
  have h₀ : Holds M tf k₁ t₁ pt (npg 0) (fun _ => 0) := h₁
  have hnone : AllUser t₁ (npg 0) := fun key hkey => absurd hkey (not_lt_zero key)
  obtain ⟨done, sz, k₂, t₂, hrun₂, hre₂, -⟩ := loadLoop_ok content (elfhdr content).phnum
    (elfhdr content).phoff 0 h₀.rep h₀.owned h₀.name h₀.space hnone
  simp only [hrun₁, ok_bind, hrun₂] at heq
  cases done with
  | false =>
    obtain ⟨k', hbad, -⟩ := execBad_ok hre₂.rep (h₀.owned.moves hre₂.moves)
      (hre₂.name.trans h₀.name) hre₂.space
    simp_all
  | true =>
    obtain ⟨-, hacc, t₂, h₂, hall₂, hm₂⟩ := loadLoop_holds hlen h₀ hnone hrun₂
    rcases execStack_cases h₂ hall₂ (elfhdr content).entry with
      ⟨k', hfail⟩ | ⟨k₃, t₃, h₃, hm₃, huser, hstack, hguard, hfin⟩
    · simp_all
    · exact .inr ⟨k₃, t₃, pt, sz, hacc, h₃, hm₁.trans (hm₂.trans hm₃), h₂.zero, huser, hstack, hguard,
        fun argv => (heq argv).trans (hfin argv)⟩

end Image

/-! ## A call of `exec` -/

/-- Process `p` calls `exec` with the arguments `strs`, each in a kernel
page of its own. -/
structure Calls {np : Nat} (M : Machine) (S : KSys np) (p : Fin np) (t : Table) (pt tf : Nat)
    (argv : List Nat) (strs : List (List Byte)) : Prop where
  lives : Lives M S.kmem.cell (S.proc p) t pt tf
  used : (S.proc p).state ≠ .unused
  owned : Custody M.IsPage S.kmem.toStore ((argv : Multiset Nat) + slotPages (S.proc p) t)
  args : List.Forall₂ (ArgAt S.kmem) argv strs
  few : argv.length < MAXARG

/-- The new image of `p`: a program of `sz` bytes with its stack behind
it, holding `g`. -/
structure Committed {np : Nat} (M : Machine) (S : KSys np) (p : Fin np) (tf : Nat)
    (path content : List Byte) (strs : List (List Byte)) (S' : KSys np) (t : Table) (pt sz : Nat)
    (g : Nat → Byte) : Prop where
  holds : Holds M tf S'.kmem t pt (npg sz + 1 + 1) g
  proc : S'.proc p = { S.proc p with
    name := programName path, pagetable := some pt, sz := (npg sz + 1 + 1) * 4096 }
  a1 : (S'.kmem.cell tf).word 8 a1Off = (npg sz + 1 + 1) * 4096 - argSize strs
  epc : (S'.kmem.cell tf).word 8 epcOff = (elfhdr content).entry
  sp : (S'.kmem.cell tf).word 8 spOff = (npg sz + 1 + 1) * 4096 - argSize strs
  below : ∀ x < (npg sz + 1) * 4096, g x = loadImage content (headersOf content) (fun _ => 0) x
  laid : ArgsLaid g ((npg sz + 1 + 1) * 4096) strs

section Call

variable {np : Nat} {M : Machine} {S : KSys np} {p : Fin np} {t t' : Table} {pt pt' tf sz : Nat}
  {argv : List Nat} {strs : List (List Byte)} {k k' : Kmem} {path content : List Byte}
  {namei : List Byte → Option (List Byte)}

theorem Calls.noArgs (h : Calls M S p t pt tf argv strs) : Calls M S p t pt tf [] [] :=
  ⟨h.lives, h.used, h.owned.mono (by simp), .nil, by decide⟩

theorem Calls.slot_owned (h : Calls M S p t pt tf argv strs) :
    Custody M.IsPage S.kmem.toStore (slotPages (S.proc p) t) := h.owned.right

/-- The argument pages are not pages of the new image, and hold what they
held. -/
theorem Calls.args_ready (h : Calls M S p t pt tf argv strs)
    (hr : Ready M tf S.kmem content k' t' pt' sz) : List.Forall₂ (ArgAt k') argv strs
      ∧ ∀ a ∈ argv, a ≠ PTE2PA (t'.get (npg sz + 1)) := by
  have hown : Custody M.IsPage k'.toStore (spacePages t' (npg sz + 1 + 1)
      + ((argv : Multiset Nat) + slotPages (S.proc p) t)) :=
    h.owned.moves ((hr.moves.add _).of_eq (zero_add _) rfl)
  have hmem : ∀ a ∈ argv, a ∈ (argv : Multiset Nat) + slotPages (S.proc p) t := fun a ha =>
    Multiset.mem_add.mpr (.inl (Multiset.mem_coe.mpr ha))
  refine ⟨ArgAt.frame_all h.args fun a ha => ?_, fun a ha heq => ?_⟩
  · exact hr.moves.frame a (Multiset.notMem_zero a) (h.owned.notMem_free (hmem a ha))
  · refine hown.notMem_left (hmem a ha) (Multiset.mem_add.mpr (.inr ?_))
    rw [heq]
    exact (hr.holds.leaf_mem (lt_succ_self _)).1

theorem exec_eq (h : Calls M S p t pt tf argv strs) (namei : List Byte → Option (List Byte))
    (path : List Byte) (hfile : namei path = some content) (argv' : List Nat) :
    exec M S p namei path argv' = execImage M S.kmem tf content argv' >>= fun r =>
      match r.1 with
      | none => .ok (-1, S.setMem r.2)
      | some img => execCommit M (S.setMem r.2) p tf pt path img >>= fun S' =>
        .ok ((argv'.length : Int), S') := by
  simp only [exec, hfile, h.lives.trapframe, h.lives.pagetable] <;> rfl

/-- With an image, `exec` returns the number of its arguments. -/
theorem exec_of_image (h : Calls M S p t pt tf argv strs)
    (namei : List Byte → Option (List Byte)) (path : List Byte) (hfile : namei path = some content)
    {o : Option Image} {argv' : List Nat} (himg : execImage M S.kmem tf content argv' = .ok (o, k))
    (hsome : o.isSome = true) {r : Int} {S' : KSys np}
    (hexec : exec M S p namei path argv' = .ok (r, S')) : r = argv'.length := by
  obtain ⟨img, rfl⟩ := Option.isSome_iff_exists.mp hsome
  rw [exec_eq h namei path hfile, himg, ok_bind] at hexec
  obtain ⟨S₁, -, h₁⟩ := bind_ok hexec
  cases h₁
  rfl

/-- `exec` fails whatever its arguments are, or it gets to them. -/
theorem Calls.exec_cases (h : Calls M S p t pt tf argv strs)
    (hlen : ∀ content, namei path = some content → content.length < 2 ^ 32) :
    (∀ argv', ∃ S', exec M S p namei path argv' = .ok (-1, S'))
      ∨ ∃ content k' t' pt' sz, namei path = some content
        ∧ Ready M tf S.kmem content k' t' pt' sz := by
  rcases hfile : namei path with _ | content
  · simp [exec, hfile]
  rcases execImage_cases (h.slot_owned.mono (Multiset.zero_le _))
    (isPage_lt (h.lives.isPage h.slot_owned)) (hlen content hfile) with
    ⟨k', hfail⟩ | ⟨k', t', pt', sz, hr⟩
  · simp [exec_eq h namei path hfile, hfail, ok_bind]
  · grind

/-- Arguments that do not fit make it fail. -/
theorem Ready.exec_full (hr : Ready M tf S.kmem content k' t' pt' sz)
    (h : Calls M S p t pt tf argv strs) (hfile : namei path = some content)
    (hfull : 4096 < argSize strs) : ∃ S', exec M S p namei path argv = .ok (-1, S') := by
  obtain ⟨hargs, hapart⟩ := h.args_ready hr
  obtain ⟨k₁, hrun, hst⟩ := pushStack_full hr.holds hr.stack (succ_pos _) hargs hapart
    h.few.le rfl hfull
  have hpages : {PTE2PA (t'.get (npg sz + 1))} ≤ leafPages t' 0 (npg sz + 1 + 1) :=
    Multiset.singleton_le.mpr (hr.holds.leaf_mem (lt_succ_self _)).1
  have hst' : Stores k' (leafPages t' 0 (npg sz + 1 + 1)) k₁ :=
    ⟨hst.free, fun x hx => hst.frame x fun hc => hx (Multiset.mem_of_le hpages hc)⟩
  have hnpg := npg_mul (npg sz + 1 + 1)
  have hre := hst'.reshapes hr.holds.rep hr.holds.owned hr.holds.space
  have hown : Custody M.IsPage k₁.toStore (spacePages t' (npg ((npg sz + 1 + 1) * 4096))) := by
    rw [hnpg]
    exact hr.holds.owned.moves hre.moves
  obtain ⟨k₂, hbad, -⟩ := execBad_ok hre.rep hown hr.holds.name (by rw [hnpg]; exact hre.space)
  refine ⟨S.setMem k₂, ?_⟩
  rw [exec_eq h namei path hfile, hr.finish, finishStack, hrun]
  simp only [hbad, ok_bind]

theorem commitFrame_words (k : Kmem) (tf : Nat) (img : Image) (hsp : img.sp < 2 ^ 64)
    (hentry : img.entry < 2 ^ 64) :
    ((commitFrame k tf img).cell tf).word 8 a1Off = img.sp
      ∧ ((commitFrame k tf img).cell tf).word 8 epcOff = img.entry
      ∧ ((commitFrame k tf img).cell tf).word 8 spOff = img.sp := by
  have hmod : ∀ {w}, w < 2 ^ 64 → w % 256 ^ 8 = w := fun hw => mod_eq_of_lt hw
  simp only [commitFrame, Kmem.setPage, Function.update_self]
  refine ⟨?_, ?_, ?_⟩
  · rw [ByteVec.word_setWord_disjoint (by decide), ByteVec.word_setWord_disjoint (by decide),
      ByteVec.word_setWord_self (by decide), hmod hsp]
  · rw [ByteVec.word_setWord_disjoint (by decide), ByteVec.word_setWord_self (by decide),
      hmod hentry]
  · rw [ByteVec.word_setWord_self (by decide), hmod hsp]

/-- Arguments that fit are on the stack of the new image. -/
theorem Ready.exec_fits (hr : Ready M tf S.kmem content k' t' pt' sz)
    (h : Calls M S p t pt tf argv strs) (hfile : namei path = some content)
    (hfit : argSize strs ≤ 4096) : ∃ S' g, exec M S p namei path argv = .ok (argv.length, S')
      ∧ Committed M S p tf path content strs S' t' pt' sz g := by
  obtain ⟨hargs, hapart⟩ := h.args_ready hr
  obtain ⟨k₁, g, hrun, hst, hg, hbelow, hlaid⟩ := pushStack_fits hr.holds hr.stack hargs hapart
    h.few.le rfl hfit
  have hle : npg sz + 1 + 1 ≤ 2 ^ 26 - 2 := hr.holds.space.user.le
  have hpages : {PTE2PA (t'.get (npg sz + 1))} ≤ spacePages t' (npg sz + 1 + 1) :=
    Multiset.singleton_le.mpr (Multiset.mem_add.mpr (.inr (hr.holds.leaf_mem (lt_succ_self _)).1))
  have hm : Moves S.kmem.toStore 0 k₁.toStore (spacePages t' (npg sz + 1 + 1)) :=
    hr.moves.trans ⟨by rw [hst.free], fun x hx _ => hst.frame x fun hc =>
      hx (Multiset.mem_of_le hpages hc)⟩
  obtain ⟨img, himg⟩ : ∃ img : Image, img = ⟨pt', (npg sz + 1 + 1) * 4096, (elfhdr content).entry,
    (npg sz + 1 + 1) * 4096 - argSize strs⟩ := ⟨_, rfl⟩
  have hnpg : npg img.sz = npg sz + 1 + 1 := by rw [himg, npg_mul]
  have hm' : Moves S.kmem.toStore 0 (S.setMem k₁).kmem.toStore (spacePages t' (npg img.sz)) := by
    rw [hnpg]
    exact hm
  have hsp : img.sp < 2 ^ 64 := by grind
  have hentry : img.entry < 2 ^ 64 := by
    rw [himg]
    exact field_lt _ 24 8
  -- the commit leaves the new image alone
  obtain ⟨hown, -, hkeep, k₂, hcommit, hm₂⟩ := execCommit_moves (S := S.setMem k₁) S.kmem h.lives
    h.slot_owned hm' path
  simp only [hnpg, setMem_kmem, setMem_proc] at hown hkeep hm₂
  have hframe : Holds M tf (commitFrame k₁ tf img) t' pt' (npg sz + 1 + 1) g :=
    ⟨hg.rep.frame fun y hy => hkeep y (Multiset.mem_add.mpr (.inl hy)), hg.name, hg.space,
      hown.right.right, fun va hva => by
        rw [← hg.bytes va hva, spaceByte, spaceByte,
          hkeep _ (Multiset.mem_add.mpr (.inr (hg.leaf_mem (vpn_lt_npages hva)).1))], hg.zero⟩
  have hcell : k₂.cell tf = (commitFrame k₁ tf img).cell tf := by
    refine hm₂.frame tf (fun hc => ?_) (hown.notMem_free (Multiset.mem_add.mpr
      (.inl (Multiset.mem_singleton_self tf))))
    exact hown.notMem_left (Multiset.mem_add.mpr (.inl hc)) (Multiset.mem_singleton_self tf)
  obtain ⟨ha1, hepc, hsp'⟩ := commitFrame_words k₁ tf img hsp hentry
  have hexec := exec_eq h namei path hfile argv
  rw [hr.finish, finishStack, hrun] at hexec
  simp only [ok_bind] at hexec
  rw [← himg, hcommit, ok_bind] at hexec
  refine ⟨_, g, hexec, ⟨hframe.frame hown.right hm₂, ?_, ?_, ?_, ?_, hbelow, hlaid⟩⟩
  · rw [setProc_proc_self, himg]
    rfl
  · simp_all
  · simp_all
  · simp_all

end Call

/-! ## A small program -/

def elfBytes (entry phoff phnum : Nat) : List Byte :=
  leBytes 4 ELF_MAGIC ++ replicate 20 0 ++ leBytes 8 entry ++ leBytes 8 phoff
    ++ replicate 16 0 ++ leBytes 2 phnum ++ replicate 6 0

def proghdrBytes (off vaddr filesz memsz : Nat) : List Byte :=
  leBytes 4 ELF_PROG_LOAD ++ leBytes 4 7 ++ leBytes 8 off ++ leBytes 8 vaddr ++ leBytes 8 0
    ++ leBytes 8 filesz ++ leBytes 8 memsz ++ leBytes 8 4096

/-- One segment of eight bytes at address 0, four of them in the file at
`off`. -/
def smallElf (off : Nat) : List Byte :=
  elfBytes 4 elfhdrSize 1 ++ proghdrBytes off 0 4 8 ++ [1, 2, 3, 4]

/-- The first process calls `exec` on a file for which there is memory. -/
theorem exec_first (content : List Byte) (h : bootRun [(.userinit [], [])] (fun S =>
    (S.proc 0).trapframe.any fun tf =>
      (execImage smallMachine S.kmem tf content []).toOption.any (·.1.isSome)) = true) :
    ∃ (S S' : KSys 2) (t : Table) (pt tf : Nat), Calls smallMachine S 0 t pt tf [] []
      ∧ exec smallMachine S 0 (fun _ => some content) [] [] = .ok (0, S') := by
  obtain ⟨S₀, S, hboot, hrun, hP⟩ := bootRun_spec _ _ h
  obtain ⟨tf, htf, hP⟩ := (Option.any_eq_true ..).mp hP
  obtain ⟨g, hi, -⟩ := run_sound hboot hrun
  rcases hi.slot 0 with hv | ⟨hst, pt, tf', hl⟩
  · rw [hv.trapframe] at htf
    cases htf
  obtain rfl : tf = tf' := Option.some.inj (htf.symm.trans hl.trapframe)
  have hcalls : Calls smallMachine S 0 (g.tree 0) pt tf [] [] :=
    ⟨hl, hst, by simpa using hi.slot_owned 0, .nil, by decide⟩
  obtain ⟨r, S', t', hexec, -⟩ := exec_ok hl hst (hi.slot_owned 0) (fun _ => some content) [] []
  rcases himg : execImage smallMachine S.kmem tf content [] with e | ⟨o, k⟩
  · rw [himg] at hP
    cases hP
  rw [himg] at hP
  have hsome : o.isSome = true := hP
  obtain rfl : r = 0 := exec_of_image hcalls (fun _ => some content) [] rfl himg hsome hexec
  exact ⟨S, S', g.tree 0, pt, tf, hcalls, hexec⟩

end Xv6.Vm
