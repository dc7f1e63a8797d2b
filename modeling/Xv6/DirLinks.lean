import Xv6.DirFiles
import Xv6.StepSystem

/-!
# Directory entries and link counts over whole runs

Two properties of the name space, over every sequence of calls from a
consistent image: an entry names an allocated inode, and a link count is
the number of entries. Neither holds of every sequence, because a
directory that was removed stays in use as a working directory:

- its `..` is no longer counted, so the parent can be removed and freed
  while the entry still names it (`removed_parent_dangles`);
- `create` still makes entries in it, which vanish with it
  (`removed_directory_leaks`).

`Orderly` excludes the calls that do this, call by call in the state
they are made in; along such runs both properties hold.
-/

namespace Xv6

open List Finset Nat

open ByteVec (Byte)
open Tally StepSystem NameSys

variable {np : Nat} {strict : Prop}

/-! ## Runs -/

/-- A call of a process in use, from start to end. -/
def nameStep (S : NameSys np) (c : SysCall np) : Option (NameSys np) :=
  if S.cwd c.proc = none then none
  else match sysCall S c with
    | .ok (_, S') => some S'
    | .error _ => none

/-- Entries are made in directories with links, and counts stay in
range; `strict` adds that a removed directory is no other's parent. -/
def Orderly (strict : Prop) (S : NameSys np) : SysCall np → Prop
  | .open p path omode => omode &&& O_CREATE ≠ 0 → S.MakesLive p path .file
  | .mkdir p path => S.MakesLive p path .dir
  | .mknod p path _ => S.MakesLive p path .device
  | .link p old new => S.LinksLive p old new
  | .unlink p path => strict → S.RemovesTop p path
  | .chdir .. | .close .. | .dup .. | .fork .. | .exit .. => True

instance [Decidable strict] (S : NameSys np) : ∀ c, Decidable (Orderly strict S c)
  | .open p path omode =>
      inferInstanceAs (Decidable (omode &&& O_CREATE ≠ 0 → S.MakesLive p path .file))
  | .mkdir p path => inferInstanceAs (Decidable (S.MakesLive p path .dir))
  | .mknod p path _ => inferInstanceAs (Decidable (S.MakesLive p path .device))
  | .link p old new => inferInstanceAs (Decidable (S.LinksLive p old new))
  | .unlink p path => inferInstanceAs (Decidable (strict → S.RemovesTop p path))
  | .chdir .. | .close .. | .dup .. | .fork .. | .exit .. => isTrue trivial

/-- Exact link counts, nothing removed and nothing open. -/
structure ConsistentImage (S : NameSys np) : Prop where
  names : Names S.ninodes S.node fun _ => 0
  linked : ∀ i, (S.node i).type ≠ none → (S.node i).nlink ≠ 0
  cwd : ∀ p c, S.cwd p = some c → (S.node c).type ≠ none
  ref : ∀ i, S.ref i = tally S.cwd i
  file : ∀ f, (S.file f).ref = 0
  ofile : ∀ x, S.ofile x = none

theorem ConsistentImage.between {S : NameSys np} (h : ConsistentImage S) : Between strict S := by
  have hfileIp : ∀ f, S.fileIp f = none := fun f => if_neg (by rw [h.file f]; exact lt_irrefl 0)
  have hholders : ∀ i, S.holders i = tally S.cwd i := fun i => by
    have : tally S.fileIp i = 0 := tally_eq_zero fun f => by
      rw [hfileIp f]
      simp
    rw [NameSys.holders, this, add_zero]
  have hheld : ∀ i, 0 < S.holders i → (S.node i).type ≠ none := fun i hi => by
    rw [hholders] at hi
    obtain ⟨p, hp⟩ := tally_pos.mp hi
    exact h.cwd p i hp
  refine ⟨⟨h.names, ⟨fun i => ?_, hheld, fun i ht hz => absurd hz (h.linked i ht),
    fun i hi _ => hheld i ?_, fun f => ?_⟩, fun _ d hd => ?_⟩, fun q _ fd => h.ofile (q, fd)⟩
  · rw [h.ref, hholders]
    rfl
  · rwa [h.ref, ← hholders] at hi
  · rw [h.file f, tally_eq_zero fun x => by rw [h.ofile x]; simp]
  · have hlive := h.linked d (by rw [hd]; simp)
    by_cases hr : d = ROOTINO
    · simp_all [hr, h.names.root_up]
    · obtain ⟨hup, e, he, heq⟩ := h.names.named d hd hlive hr rfl
      exact ⟨hup, h.names.live_of_entry hup he (by rw [heq]; exact h.names.ne_zero_of_dir hd)⟩

/-- One call. -/
theorem Between.sysCall {S : NameSys np} (h : Between strict S) {c : SysCall np}
    (hp : S.cwd c.proc ≠ none) (hc : Orderly strict S c) :
    Ends (fun r => Between strict r.2) (fun e => strict → e ≠ .noType) (sysCall S c) := by
  cases c with
  | «open» p path omode => exact h.sysOpen hp hc
  | mkdir p path => exact (h.inv.sysMake hc 0).mono fun r hr => hr.between h.idle
  | mknod p path major => exact (h.inv.sysMake hc major).mono fun r hr => hr.between h.idle
  | link p old new => exact (h.inv.sysLink hc).mono fun r hr => hr.between h.idle
  | unlink p path => exact (h.inv.sysUnlink hc).mono fun r hr => hr.between h.idle
  | chdir p path => exact h.sysChdir
  | close p fd => exact h.sysClose hp fd
  | dup p fd => exact h.sysDup hp fd
  | fork p q => exact (h.fork q).bind fun S' hS' => hS'
  | exit p => exact h.exit.bind fun S' hS' => hS'

theorem Between.step {S S' : NameSys np} {c : SysCall np} (h : Between strict S)
    (hc : Orderly strict S c) (hs : nameStep S c = some S') : Between strict S' := by
  unfold nameStep at hs
  split at hs
  · cases hs
  · rename_i hp
    have hend := h.sysCall hp hc
    split at hs
    · rename_i r S₁ hok
      cases hs
      exact hend.of_ok hok
    · cases hs

/-- The invariant along a run of orderly calls. -/
theorem ConsistentImage.run {S₀ S : NameSys np} {cs : List (SysCall np)} (h : ConsistentImage S₀)
    (hcs : Along nameStep (Orderly strict) S₀ cs) (hrun : run nameStep S₀ cs = some S) :
    Between strict S :=
  run_invariant_along (fun hs hc hstep => hs.step hc hstep) h.between hcs hrun

/-! ## What the invariant says -/

section Meaning

variable {n : Nat} {N : Nat → Node} {pend : Nat → Nat}

theorem Names.entry_alloc (h : Names n N pend) (hup : Up N) {d : Nat}
    (hd : (N d).type = some .dir) {e : Dirent} (he : e ∈ (N d).ents) (hne : e.inum ≠ 0) :
    (N e.inum).type ≠ none := by
  rw [(h.dots d hd).ents] at he
  rcases mem_cons.mp he with rfl | he
  · rw [hd]
    exact nofun
  · rcases mem_cons.mp he with rfl | he
    · rw [(hup d hd).1]
      exact nofun
    · exact h.alloc_of_links hne (h.links_pos_of_entry hd he)

/-- Reachable from the root through entries. -/
inductive Reachable (N : Nat → Node) : Nat → Prop
  | root : Reachable N ROOTINO
  | entry {d : Nat} {e : Dirent} : Reachable N d → (N d).type = some .dir → e ∈ (N d).ents →
      e.inum ≠ 0 → Reachable N e.inum

theorem Reachable.named {d c : Nat} (hd : Reachable N d) (hdir : (N d).type = some .dir)
    (he : ∃ e ∈ (N d).rest, e.inum = c) (hc : c ≠ 0) : Reachable N c := by
  obtain ⟨e, he, rfl⟩ := he
  exact hd.entry hdir (mem_of_mem_drop he) hc

/-- A directory with links is reachable, through its parents. -/
theorem Names.reachable_dir (h : Names n N fun _ => 0) {c : Nat} (hc : (N c).type = some .dir)
    (hl : (N c).nlink ≠ 0) : Reachable N c := by
  obtain ⟨depth, hdepth⟩ := h.ranked
  induction hm : depth c using Nat.strong_induction_on generalizing c with
  | _ m ih =>
    by_cases hr : c = ROOTINO
    · rw [hr]
      exact .root
    · obtain ⟨hup, hent⟩ := h.named c hc hl hr rfl
      have hc0 := h.ne_zero_of_dir hc
      have hlive : (N (N c).dotdot).nlink ≠ 0 := by
        obtain ⟨e, he, heq⟩ := hent
        exact h.live_of_entry hup he (by rw [heq]; exact hc0)
      exact (ih _ (hm ▸ hdepth c hc hl hr) hup hlive rfl).named hup hent hc0

/-- What has a link is linked by a directory with links. -/
theorem Names.linked_by (h : Names n N fun _ => 0) {x : Nat} (hx : (N x).type ≠ none)
    (hl : 0 < (N x).nlink) : ∃ d, (N d).type = some .dir ∧ 0 < (N d).linksTo x := by
  have hpos : 0 < links n N x := by
    rw [h.count x hx] at hl
    omega
  by_contra hno
  refine lt_irrefl 0 (hpos.trans_le (le_of_eq (Finset.sum_eq_zero fun d _ => ?_)))
  by_contra hd
  by_cases hdir : (N d).type = some .dir
  · grind
  · exact hd (Node.linksTo_of_not_dir hdir x)

theorem Names.reachable (h : Names n N fun _ => 0) {x : Nat} (hx : (N x).type ≠ none)
    (hl : 0 < (N x).nlink) : Reachable N x := by
  by_cases hdir : (N x).type = some .dir
  · exact h.reachable_dir hdir (Int.ne_of_gt hl)
  · obtain ⟨d, hd, hlink⟩ := h.linked_by hx hl
    have hx0 := ne_of_gt (h.range x hx).1
    rw [Node.linksTo_dir hd] at hlink
    -- a `..` with a link names a directory
    have hup : ¬((N d).nlink ≠ 0 ∧ (N d).dotdot = x) := by
      rintro ⟨hlive, rfl⟩
      by_cases hr : d = ROOTINO
      · rw [hr, h.root_up] at hdir
        exact hdir h.root
      · exact hdir (h.named d hd hlive hr rfl).1
    rw [if_neg hup, add_zero] at hlink
    obtain ⟨e, he, rfl⟩ := namesOf_pos.mp hlink
    exact (h.reachable_dir hd (h.live_of_entry hd he hx0)).named hd ⟨e, he, rfl⟩ hx0

/-- The entries that name `x`, other than `.`, in directories with
links. -/
def entryCount (n : Nat) (N : Nat → Node) (x : Nat) : Nat :=
  ∑ d ∈ range n, if (N d).type = some .dir ∧ 0 < (N d).nlink then
    (N d).ents.countP fun e => decide (e.inum = x ∧ e.name ≠ dotName) else 0

theorem Node.Dots.countP {nd : Node} {d x : Nat} (h : nd.Dots d) (hx : x ≠ 0) :
    (nd.ents.countP fun e => decide (e.inum = x ∧ e.name ≠ dotName))
      = namesOf nd.rest x + if nd.dotdot = x then 1 else 0 := by
  have hne : dotdotName ≠ dotName := by decide
  have hrest : (nd.rest.countP fun e => decide (e.inum = x ∧ e.name ≠ dotName))
      = namesOf nd.rest x := by
    refine countP_congr fun e he => ?_
    simp only [decide_eq_true_eq]
    refine ⟨fun hc => hc.1, fun hc => ⟨hc, (h.names e he ?_).1⟩⟩
    rw [hc]
    exact hx
  rw [h.ents, countP_cons, countP_cons, hrest]
  simp only [ne_eq, hne, not_true_eq_false, and_false, decide_false, not_false_eq_true, and_true,
    decide_eq_true_eq, Bool.false_eq_true, if_false, add_zero]

theorem Names.links_eq_entryCount (h : Names n N fun _ => 0) {x : Nat} (hx : x ≠ 0) :
    links n N x = entryCount n N x := by
  refine sum_congr rfl fun d _ => ?_
  by_cases hd : (N d).type = some .dir
  · have hcount := h.count d (by rw [hd]; exact nofun)
    rw [Node.linksTo_dir hd]
    by_cases hl : (N d).nlink = 0
    · -- a removed directory has no entries
      have hnone : namesOf (N d).rest x = 0 := namesOf_eq_zero.mpr fun e he heq =>
        hx (heq ▸ h.clean d hd hl e he)
      grind
    · have hc : (N d).type = some .dir ∧ 0 < (N d).nlink := ⟨hd, by omega⟩
      simp only [if_pos hc, (h.dots d hd).countP hx]
      grind
  · rw [Node.linksTo_of_not_dir hd, if_neg fun hc => hd hc.1]

end Meaning

/-! ## The two properties -/

/-- **Directory entries name allocated inodes**, in every state an
orderly run reaches; hence no path lookup and no orderly call panics
with `ilock: no type`. -/
theorem entries_name_allocated {S₀ S : NameSys np} {cs : List (SysCall np)}
    (h₀ : ConsistentImage S₀) (hcs : Along nameStep (Orderly True) S₀ cs)
    (hrun : run nameStep S₀ cs = some S) :
    (∀ d, (S.node d).type = some .dir → ∀ e ∈ (S.node d).ents, e.inum ≠ 0 →
        (S.node e.inum).type ≠ none)
      ∧ (∀ p path parent, S.namex p path parent ≠ .error .noType
        ∧ ∀ r S', S.namex p path parent = .ok (some r, S') → S'.ilock r.1 ≠ .error .noType)
      ∧ ∀ c, S.cwd c.proc ≠ none → Orderly True S c → sysCall S c ≠ .error .noType := by
  have h := h₀.run hcs hrun
  refine ⟨fun d hd e he hne => h.inv.names.entry_alloc (h.inv.up trivial) hd he hne,
    fun p path parent => ?_, fun c hp hc herr => (h.sysCall hp hc).of_error herr trivial rfl⟩
  have hend := h.inv.namex p path parent
  refine ⟨fun herr => hend.of_error herr trivial rfl, fun r S' hok herr => ?_⟩
  obtain ⟨-, hlook⟩ := hend.of_ok hok
  have hinv : Inv True S' [r.1] fun _ => 0 := hlook.inv
  exact (hinv.ilock fun hs => hlook.alloc hs rfl).of_error herr trivial rfl

/-- **Link counts are exact**, in every state an orderly run reaches: an
inode with links is reachable from the root and has as many entries as
links, and one without is held by a process. -/
theorem link_counts_exact {S₀ S : NameSys np} {cs : List (SysCall np)} (h₀ : ConsistentImage S₀)
    (hcs : Along nameStep (Orderly False) S₀ cs) (hrun : run nameStep S₀ cs = some S) (x : Nat)
    (hx : (S.node x).type ≠ none) :
    (S.node x).nlink = entryCount S.ninodes S.node x
      ∧ (0 < (S.node x).nlink → Reachable S.node x)
      ∧ ((S.node x).nlink = 0 → (∃ p, S.cwd p = some x)
        ∨ ∃ p fd f, S.ofile (p, fd) = some f ∧ (S.file f).ip = some x) := by
  have h := (h₀.run hcs hrun).inv
  have hx0 := ne_of_gt (h.names.range x hx).1
  refine ⟨?_, h.names.reachable hx, fun hz => ?_⟩
  · rw [h.names.count x hx, h.names.links_eq_entryCount hx0]
    rfl
  · have hheld : 0 < tally S.cwd x + tally S.fileIp x := h.keptBy x hx hz
    rcases Nat.eq_zero_or_pos (tally S.cwd x) with h0 | hpos
    · rw [h0, zero_add] at hheld
      obtain ⟨f, hf⟩ := tally_pos.mp hheld
      have href : 0 < (S.file f).ref := by
        by_contra hno
        rw [fileIp, if_neg hno] at hf
        cases hf
      rw [fileIp, if_pos href] at hf
      rw [h.refs.files f] at href
      obtain ⟨⟨p, fd⟩, hfd⟩ := tally_pos.mp href
      exact .inr ⟨p, fd, f, hfd, hf⟩
    · exact .inl (tally_pos.mp hpos)

/-! ## Concrete runs -/

/-- An empty file system, as one process finds it. -/
def rootImage : NameSys 1 where
  ninodes := 5
  node i := if i = ROOTINO then ⟨some .dir, 0, 1, [⟨1, dotName⟩, ⟨1, dotdotName⟩]⟩
    else ⟨none, 0, 0, []⟩
  ref i := if i = ROOTINO then 1 else 0
  valid _ := false
  cwd _ := some ROOTINO
  ofile _ := none
  file _ := ⟨0, none⟩

theorem rootImage_consistent : ConsistentImage rootImage := by
  have hroot : rootImage.node ROOTINO
      = ⟨some .dir, 0, 1, [⟨1, dotName⟩, ⟨1, dotdotName⟩]⟩ := rfl
  have hother : ∀ {i}, i ≠ ROOTINO → rootImage.node i = ⟨none, 0, 0, []⟩ := fun hi => if_neg hi
  have halloc : ∀ {i}, (rootImage.node i).type ≠ none → i = ROOTINO := fun {i} hi => by
    by_contra hne
    rw [hother hne] at hi
    exact hi rfl
  have hdir : ∀ {i}, (rootImage.node i).type = some .dir → i = ROOTINO := fun hi =>
    halloc (by rw [hi]; exact nofun)
  have hrest : ∀ {i}, (rootImage.node i).type = some .dir → (rootImage.node i).rest = [] := by
    intro i hi
    rw [hdir hi, hroot]
    rfl
  have hlinks : ∀ x, links rootImage.ninodes rootImage.node x = if x = ROOTINO then 1 else 0 := by
    intro x
    unfold links
    rw [sum_eq_single_of_mem ROOTINO (by decide) fun d _ hd => by
      rw [hother hd]
      rfl, hroot]
    show 0 + (if (1 : Int) ≠ 0 ∧ ROOTINO = x then 1 else 0) = _
    grind
  refine ⟨⟨by decide, fun i hi => ?_, fun i hi => ?_, fun d hd => ?_, fun d hd hz e he => ?_,
    fun x hx => ?_, fun x hx => ?_, fun x hx hnone => ?_, fun d hd e he => ?_,
    fun d c hd hc => ?_, fun c hc _ hr => absurd (hdir hc) hr, ?_, ?_, ?_, ⟨rfl, fun d hd e he => ?_⟩,
    ⟨fun _ => 0, fun c hc _ hr => absurd (hdir hc) hr⟩⟩, fun i hi => ?_, fun p c hc => ?_,
    fun i => ?_, fun _ => rfl, fun _ => rfl⟩
  · rw [halloc hi]
    decide
  · grind
  · rw [hdir hd, hroot]
    exact ⟨rfl, by decide, fun e he => absurd he not_mem_nil⟩
  · grind
  · grind
  · rw [halloc hx, hroot]
    decide
  · grind
  · grind
  · rw [hrest hd]
    exact zero_le 1
  · rfl
  · rfl
  · decide
  · grind
  · rw [halloc hi, hroot]
    decide
  · cases show some ROOTINO = some c from hc
    exact nofun
  · show (if i = ROOTINO then 1 else 0) = tally (fun _ : Fin 1 => some ROOTINO) i
    by_cases hi : i = ROOTINO
    · rw [hi]
      rfl
    · rw [if_neg hi, tally_eq_zero fun _ hc => hi (Option.some.inj hc).symm]

local instance neZero_one : NeZero 1 := ⟨by decide⟩

/-- `mkdir a; mkdir a/b; chdir a/b; unlink ../b; unlink /a`. -/
def danglingCalls : List (SysCall 1) :=
  [.mkdir 0 [0x61], .mkdir 0 [0x61, 0x2f, 0x62], .chdir 0 [0x61, 0x2f, 0x62],
    .unlink 0 [0x2e, 0x2e, 0x2f, 0x62], .unlink 0 [0x2f, 0x61]]

/-- The panic a call ends with. -/
def panicOf {α : Type} : Except NamePanic α → Option NamePanic
  | .ok _ => none
  | .error e => some e

/-- The working directory `a/b`, removed, keeps its `..`, and the inode
it names is freed; the next lookup through it panics. -/
theorem removed_parent_dangles : ConsistentImage rootImage ∧
    ∃ S, run nameStep rootImage danglingCalls = some S
      ∧ (∃ d, (S.node d).type = some .dir ∧ ∃ e ∈ (S.node d).ents, e.inum ≠ 0
        ∧ (S.node e.inum).type = none)
      ∧ panicOf (sysCall S (.chdir 0 dotdotName)) = some .noType := by
  have hrun : ((run nameStep rootImage danglingCalls).any fun S =>
      decide ((S.node 3).type = some .dir ∧ (∃ e ∈ (S.node 3).ents, e.inum ≠ 0
        ∧ (S.node e.inum).type = none)
      ∧ panicOf (sysCall S (.chdir 0 dotdotName)) = some .noType)) = true := by decide +kernel
  obtain ⟨S, hS, hprop⟩ := (Option.any_eq_true ..).mp hrun
  obtain ⟨hdir, hent, hpanic⟩ := of_decide_eq_true hprop
  exact ⟨rootImage_consistent, S, hS, ⟨3, hdir, hent⟩, hpanic⟩

/-- `mkdir a; chdir a; unlink ../a; open x; chdir /; close`. -/
def leakingCalls : List (SysCall 1) :=
  [.mkdir 0 [0x61], .chdir 0 [0x61], .unlink 0 [0x2e, 0x2e, 0x2f, 0x61],
    .open 0 [0x78] 0x201, .chdir 0 [0x2f], .close 0 0]

/-- A file made in a removed directory is left with a link, without an
entry and without a reference. -/
theorem removed_directory_leaks : ConsistentImage rootImage ∧
    ∃ S, run nameStep rootImage leakingCalls = some S
      ∧ (S.node 3).type = some .file ∧ (S.node 3).nlink = 1
      ∧ entryCount S.ninodes S.node 3 = 0 ∧ S.ref 3 = 0 := by
  have hrun : ((run nameStep rootImage leakingCalls).any fun S =>
      decide ((S.node 3).type = some .file ∧ (S.node 3).nlink = 1
        ∧ entryCount S.ninodes S.node 3 = 0 ∧ S.ref 3 = 0)) = true := by decide +kernel
  obtain ⟨S, hS, hprop⟩ := (Option.any_eq_true ..).mp hrun
  exact ⟨rootImage_consistent, S, hS, of_decide_eq_true hprop⟩

/-- `mkdir a; mkdir a/b; chdir a/b; unlink ../b; open /x; link /x /a/y;
unlink /x`: ends in a removed directory that is still in use. -/
def orderlyCalls : List (SysCall 1) :=
  [.mkdir 0 [0x61], .mkdir 0 [0x61, 0x2f, 0x62], .chdir 0 [0x61, 0x2f, 0x62],
    .unlink 0 [0x2e, 0x2e, 0x2f, 0x62], .open 0 [0x2f, 0x78] 0x201,
    .link 0 [0x2f, 0x78] [0x2f, 0x61, 0x2f, 0x79], .unlink 0 [0x2f, 0x78]]

theorem entries_name_allocated_orderly : Along nameStep (Orderly True) rootImage orderlyCalls
    ∧ ∃ S, run nameStep rootImage orderlyCalls = some S
      ∧ ∀ d, (S.node d).type = some .dir → ∀ e ∈ (S.node d).ents, e.inum ≠ 0 →
        (S.node e.inum).type ≠ none := by
  have hcs : Along nameStep (Orderly True) rootImage orderlyCalls := by decide +kernel
  obtain ⟨S, hS⟩ := Option.isSome_iff_exists.mp
    (show (run nameStep rootImage orderlyCalls).isSome = true by decide +kernel)
  exact ⟨hcs, S, hS, (entries_name_allocated rootImage_consistent hcs hS).1⟩

theorem link_counts_exact_orderly : Along nameStep (Orderly False) rootImage orderlyCalls
    ∧ ∃ S, run nameStep rootImage orderlyCalls = some S
      ∧ (S.node 4).type = some .file ∧ (S.node 4).nlink = entryCount S.ninodes S.node 4
      ∧ (S.node 3).nlink = 0 ∧ ((∃ p, S.cwd p = some 3)
        ∨ ∃ p fd f, S.ofile (p, fd) = some f ∧ (S.file f).ip = some 3) := by
  have hcs : Along nameStep (Orderly False) rootImage orderlyCalls := by decide +kernel
  have hrun : ((run nameStep rootImage orderlyCalls).any fun S =>
      decide ((S.node 4).type = some .file ∧ (S.node 3).type = some .dir
        ∧ (S.node 3).nlink = 0)) = true := by decide +kernel
  obtain ⟨S, hS, hprop⟩ := (Option.any_eq_true ..).mp hrun
  obtain ⟨h4, h3, hz⟩ := of_decide_eq_true hprop
  refine ⟨hcs, S, hS, h4,
    (link_counts_exact rootImage_consistent hcs hS 4 (by rw [h4]; exact nofun)).1, hz,
    (link_counts_exact rootImage_consistent hcs hS 3 (by rw [h3]; exact nofun)).2.2 hz⟩

end Xv6
