import Xv6.DirPaths

/-!
# The calls that change directories

`create`, `sys_link` and `sys_unlink`: each is a lookup, one of the
moves of `Names`, and the references given back. The hypotheses that are
not part of the invariant speak of the state before the call, through
`resolve`: a new entry is made in a directory that has links, a link
count that goes up stays a `short`, and (where `..` must not dangle) no
directory is removed while it is the parent of a removed one.
-/

namespace Xv6

open Function List Nat

open ByteVec (Byte)
open NameSys

variable {np : Nat} {strict : Prop}

theorem toShort_eq {n : Int} (h0 : 0 ≤ n) (h : n ≤ 32767) : toShort n = n := by
  rw [toShort, Int.bmod_def]
  omega

theorem setNode_setNode (S : NameSys np) (i : Nat) (a b : Node) :
    (S.setNode i a).setNode i b = S.setNode i b := by
  unfold NameSys.setNode
  simp only [update_idem]

theorem setNode_comm {S : NameSys np} {i j : Nat} {a b : Node} (h : i ≠ j) :
    (S.setNode i a).setNode j b = (S.setNode j b).setNode i a := by
  unfold NameSys.setNode
  simp only [update_comm h]

theorem setNode_sameProcs (S : NameSys np) (i : Nat) (nd : Node) : SameProcs S (S.setNode i nd) :=
  ⟨rfl, rfl, rfl, rfl⟩

/-- One link of `ip` is counted ahead. -/
def pendOne (ip : Nat) (y : Nat) : Nat := if y = ip then 1 else 0

theorem pendOne_self (ip : Nat) : pendOne ip ip = 1 := if_pos rfl

theorem pendOne_of_ne {ip y : Nat} (h : y ≠ ip) : pendOne ip y = 0 := if_neg h

/-! ## A new entry -/

/-- The counted link of `ip` is entered in `dp`. -/
theorem Inv.enter {S : NameSys np} {l : List Nat} {dp ip : Nat} {nm : Name}
    (h : Inv strict S l (pendOne ip)) (hd : (S.node dp).type = some .dir)
    (hl : (S.node dp).lookup nm = none) (hlive : (S.node dp).nlink ≠ 0)
    (halloc : (S.node ip).type ≠ none) (hdir : (S.node ip).type = some .dir →
      ip ≠ ROOTINO ∧ (S.node ip).dotdot = dp ∧ links S.ninodes S.node ip = 0) :
    Inv strict (S.setNode dp ((S.node dp).link ⟨ip % 2 ^ 16, nm⟩)) l fun _ => 0 := by
  have hnm := (h.names.dots dp hd).lookup_none (h.names.ne_zero_of_dir hd) hl
  have hip : ip % 2 ^ 16 = ip :=
    mod_eq_of_lt (lt_of_lt_of_le (h.names.range ip halloc).2 h.names.fits)
  rw [hip]
  have ht := h.names.entered hd (e := ⟨ip, nm⟩) hnm
  refine h.relink ⟨rfl, rfl, rfl, rfl⟩ rfl rfl ht.type (fun j hz => .inl (ht.nlink j ▸ hz))
    (h.names.enter ht hd hlive halloc hdir (pendOne_self ip) fun y hy => (pendOne_of_ne hy).symm)
    fun hs => (h.up hs).entered ht

/-! ## `create` -/

/-- The state after `ialloc`, `ilock` and the assignments to the new
inode. -/
def NameSys.claimed (S : NameSys np) (ip : Nat) (nd : Node) : NameSys np :=
  { S with
    node := update S.node ip nd
    ref := update S.ref ip 1
    valid := update S.valid ip true }

theorem claimed_setNode (S : NameSys np) (ip : Nat) (a b : Node) :
    (S.claimed ip a).setNode ip b = S.claimed ip b := by
  unfold NameSys.setNode NameSys.claimed
  simp only [update_idem]

theorem ialloc_cases (S : NameSys np) (type : FileType) :
    S.ialloc type = .error .noInodes ∨
      ∃ ip, S.ialloc type = .ok (ip, (S.setNode ip (Node.fresh type)).iget ip)
        ∧ 0 < ip ∧ ip < S.ninodes ∧ (S.node ip).type = none := by
  unfold NameSys.ialloc
  split
  · exact .inl rfl
  · grind

theorem ilock_fresh {S : NameSys np} {ip : Nat} (href : S.ref ip = 0) (type : FileType)
    (major : Int) :
    ∃ S', ((S.setNode ip (Node.fresh type)).iget ip).ilock ip = .ok S'
      ∧ S'.setNode ip ((S'.node ip).init major)
        = S.claimed ip ((Node.fresh type).init major) := by
  have hv : ((S.setNode ip (Node.fresh type)).iget ip).valid = update S.valid ip false :=
    if_pos href
  have hn : ((S.setNode ip (Node.fresh type)).iget ip).node
      = update S.node ip (Node.fresh type) := rfl
  have hr : ((S.setNode ip (Node.fresh type)).iget ip).ref = update S.ref ip 1 := by
    show update S.ref ip (S.ref ip + 1) = _
    rw [href]
  refine ⟨{ (S.setNode ip (Node.fresh type)).iget ip with
    valid := update S.valid ip true }, ?_, ?_⟩
  · unfold NameSys.ilock
    simp_all [hv, hn, update_self, Bool.false_ne_true, update_idem, Node.fresh]
  · show ({ S with node := _, ref := _, valid := _ } : NameSys np) = _
    rw [hn, hr, update_self, update_idem]
    rfl

variable {l : List Nat} {type : FileType} {path : List Byte}

section Create

variable {S : NameSys np} {dp ip : Nat} {nm : Name}

/-- An ordinary inode is claimed. -/
theorem Inv.claim_plain (h : Inv strict S l fun _ => 0) (hfree : (S.node ip).type = none)
    (hl : l.count ip = 0) (h0 : 0 < ip) (hn : ip < S.ninodes) (ht : type ≠ .dir) (major : Int) :
    Inv strict (S.claimed ip ((Node.fresh type).init major)) (ip :: l) (pendOne ip) := by
  have hself : (S.claimed ip ((Node.fresh type).init major)).node ip
      = (Node.fresh type).init major := update_self ..
  have hother : ∀ j ≠ ip, (S.claimed ip ((Node.fresh type).init major)).node j = S.node j :=
    fun j hj => update_of_ne hj ..
  have hplain : ((Node.fresh type).init major).type ≠ some .dir := fun hc =>
    ht (Option.some.inj hc)
  refine h.claim hfree hl ⟨rfl, rfl, rfl, rfl⟩ rfl rfl (by rw [hself]; exact nofun)
    (by rw [hself]; exact Int.one_ne_zero) (fun j hj => by rw [hother j hj])
    (fun j hj _ hz => by rwa [hother j hj] at hz)
    (h.names.alloc_plain hfree h0 hn nofun hplain rfl rfl (pendOne_self ip)
      fun y hy => pendOne_of_ne hy) fun hs => (h.up hs).same_dirs (fun {d} hd => ?_) fun {d} hd => ?_
  · grind
  · grind

/-- The assignments of `create` for a directory. -/
def NameSys.madeDir (S : NameSys np) (dp ip : Nat) (major : Int) : NameSys np :=
  (S.claimed ip
    { (Node.fresh .dir).init major with ents := [⟨ip, dotName⟩, ⟨dp, dotdotName⟩] }).setNode dp
      { S.node dp with nlink := (S.node dp).nlink + 1 }

theorem madeDir_made (hne : dp ≠ ip) (major : Int) :
    MadeDir S.node (S.madeDir dp ip major).node dp ip := by
  have hip : (S.madeDir dp ip major).node ip
      = { (Node.fresh .dir).init major with ents := [⟨ip, dotName⟩, ⟨dp, dotdotName⟩] } := by
    show update (update S.node ip _) dp _ ip = _
    rw [update_of_ne hne.symm, update_self]
  refine ⟨by rw [hip]; rfl, by rw [hip]; rfl, by rw [hip], update_self .., fun hi hd => ?_⟩
  show update (update S.node ip _) dp _ _ = _
  rw [update_of_ne hd, update_of_ne hi]

theorem Inv.claim_dir (h : Inv strict S l fun _ => 0) (hfree : (S.node ip).type = none)
    (hl : l.count ip = 0) (h0 : 0 < ip) (hn : ip < S.ninodes) (hd : (S.node dp).type = some .dir)
    (hlive : (S.node dp).nlink ≠ 0) (hroom : (S.node dp).nlink < 32767) (hne : dp ≠ ip)
    (major : Int) : Inv strict (S.madeDir dp ip major) (ip :: l) (pendOne ip) := by
  have hm := madeDir_made (S := S) hne major
  refine h.claim hfree hl ⟨rfl, rfl, rfl, rfl⟩ rfl rfl (by rw [hm.type]; exact nofun)
    (by rw [hm.nlink]; exact Int.one_ne_zero) (fun j hj => (hm.keeps hj).1) (fun j hj _ hz => ?_)
    (h.names.alloc_dir hm hfree h0 hn hd hlive hroom (pendOne_self ip)
      fun y hy => pendOne_of_ne hy) fun hs => (h.up hs).made_dir hm h.names hfree hd hlive
  by_contra hj0
  exact (hm.live_iff h.names hj hlive hd).mpr hj0 hz

theorem createDots_eq (hfits : S.ninodes ≤ 2 ^ 16) (hdp : dp < S.ninodes) (hip : ip < S.ninodes)
    (h0 : 0 < ip) (hne : dp ≠ ip) (hnl : 0 ≤ (S.node dp).nlink) (hroom : (S.node dp).nlink < 32767)
    (major : Int) :
    (S.claimed ip ((Node.fresh .dir).init major)).createDots dp ip
      = .ok (S.madeDir dp ip major) := by
  have hipm : ip % 2 ^ 16 = ip := mod_eq_of_lt (by omega)
  have hdpm : dp % 2 ^ 16 = dp := mod_eq_of_lt (by omega)
  -- the new directory before, between and after the two entries
  let nd := (Node.fresh .dir).init major
  let T := (S.claimed ip nd).setNode dp (((S.claimed ip nd).node dp).addLinks 1)
  have hT : T.node ip = nd := by
    show update (update S.node ip nd) dp _ ip = nd
    grind
  have hdot : T.dirlink ip dotName ip = .ok (true, T.setNode ip (nd.link ⟨ip, dotName⟩)) := by
    rw [dirlink_new (by rw [hT]; rfl) (by rw [hT]; rfl), hT, hipm]
  let T₁ := T.setNode ip (nd.link ⟨ip, dotName⟩)
  have hT₁ : T₁.node ip = nd.link ⟨ip, dotName⟩ := update_self ..
  have hdots : dotName ≠ dotdotName := by decide
  have hlook : (nd.link ⟨ip, dotName⟩).lookup dotdotName = none := by
    show findIdx? _ [(⟨ip, dotName⟩ : Dirent)] = none
    grind
  have hup : T₁.dirlink ip dotdotName dp
      = .ok (true, T₁.setNode ip ((nd.link ⟨ip, dotName⟩).link ⟨dp, dotdotName⟩)) := by
    rw [dirlink_new (by rw [hT₁]; rfl) (by rw [hT₁]; exact hlook), hT₁, hdpm]
  have hents : (nd.link ⟨ip, dotName⟩).link ⟨dp, dotdotName⟩
      = { nd with ents := [⟨ip, dotName⟩, ⟨dp, dotdotName⟩] } := by
    show ({ nd with ents := enter [(⟨ip, dotName⟩ : Dirent)] ⟨dp, dotdotName⟩ } : Node) = _
    rw [Xv6.enter, findIdx?_cons, decide_eq_false (ne_of_gt h0)]
    rfl
  have hdplinks : ((S.claimed ip nd).node dp).addLinks 1
      = { S.node dp with nlink := (S.node dp).nlink + 1 } := by
    have : (S.claimed ip nd).node dp = S.node dp := update_of_ne hne ..
    rw [this, Node.addLinks, toShort_eq (by omega) (by omega)]
  have hfinal : T₁.setNode ip ((nd.link ⟨ip, dotName⟩).link ⟨dp, dotdotName⟩)
      = S.madeDir dp ip major := by
    rw [setNode_setNode, hents, setNode_comm hne, claimed_setNode, hdplinks]
    rfl
  show (T.dirlink ip dotName ip >>= _) = _
  rw [hdot]
  show (T₁.dirlink ip dotdotName dp >>= _) = _
  rw [hup, ← hfinal]
  rfl

/-- A call that ends with a reference to the allocated inode `ip`. -/
structure Holds (strict : Prop) (S S' : NameSys np) (ip : Nat) : Prop where
  inv : Inv strict S' [ip] fun _ => 0
  procs : SameProcs S S'
  alloc : (S'.node ip).type ≠ none

/-- The last part of `createNew`: the entry, and `iunlockput(dp)`. -/
theorem Inv.create_entry {T : NameSys np} (h : Inv strict T [ip, dp] (pendOne ip))
    (hp : SameProcs S T) (hd : (T.node dp).type = some .dir) (hl : (T.node dp).lookup nm = none)
    (hlive : (T.node dp).nlink ≠ 0) (halloc : (T.node ip).type ≠ none)
    (hdir : (T.node ip).type = some .dir →
      ip ≠ ROOTINO ∧ (T.node ip).dotdot = dp ∧ links T.ninodes T.node ip = 0) :
    ∃ T', T.dirlink dp nm ip = .ok (true, T') ∧ Holds strict S (T'.iput dp) ip := by
  refine ⟨_, dirlink_new hd hl, ?_⟩
  have h₁ := (h.enter hd hl hlive halloc hdir).perm (.swap ..)
  have ht := h.names.entered hd (e := ⟨ip % 2 ^ 16, nm⟩)
    ((h.names.dots dp hd).lookup_none (h.names.ne_zero_of_dir hd) hl)
  refine ⟨h₁.iput, (hp.trans (setNode_sameProcs T dp _)).trans (iput_sameProcs _ dp), ?_⟩
  have hlive' : ((T.setNode dp ((T.node dp).link ⟨ip % 2 ^ 16, nm⟩)).node dp).nlink ≠ 0 :=
    fun hz => hlive ((ht.nlink dp).symm.trans hz)
  rw [iput_eq hlive']
  exact fun hnone => halloc ((ht.type ip).symm.trans hnone)

theorem Inv.createNew (h : Inv strict S [dp] fun _ => 0) (hd : (S.node dp).type = some .dir)
    (hl : (S.node dp).lookup nm = none) (hlive : (S.node dp).nlink ≠ 0)
    (hroom : type = .dir → (S.node dp).nlink < 32767) (major : Int) :
    Ends (fun r => ∃ ip, r.1 = some ip ∧ Holds strict S r.2 ip) (fun e => strict → e ≠ .noType)
      (S.createNew dp nm type major) := by
  unfold NameSys.createNew
  rcases ialloc_cases S type with herr | ⟨ip, hok, h0, hn, hfree⟩
  · rw [herr]
    rintro _ ⟨⟩
  have hne : dp ≠ ip := by grind
  have hcount : [dp].count ip = 0 := by grind
  have href : S.ref ip = 0 := by
    have hheld : ¬0 < S.holders ip := fun hpos => h.refs.held ip hpos hfree
    rw [h.refs.ref_eq, hcount]
    omega
  obtain ⟨S₁, hlock, hinit⟩ := ilock_fresh href type major
  rw [hok]
  show Ends _ _ (NameSys.ilock _ ip >>= _)
  rw [hlock]
  show Ends _ _ ((if type = .dir then (S₁.setNode ip _).createDots dp ip else .ok _) >>= _)
  rw [hinit]
  -- both kinds end in a state to which the entry is added
  have hend : ∀ {T : NameSys np}, (∃ T', T.dirlink dp nm ip = .ok (true, T')
      ∧ Holds strict S (T'.iput dp) ip) →
      Ends (fun r : Option Nat × NameSys np => ∃ ip, r.1 = some ip ∧ Holds strict S r.2 ip)
        (fun e => strict → e ≠ .noType) (do
          let r ← T.dirlink dp nm ip
          if !r.1 then .error .createDirlink else .ok (some ip, r.2.iput dp)) := by
    rintro T ⟨T', hlink, hholds⟩
    rw [hlink]
    exact ⟨ip, rfl, hholds⟩
  have hdlt := h.names.lt_of_dir hd
  by_cases ht : type = .dir
  · subst ht
    have hnl : 0 ≤ (S.node dp).nlink := by
      rw [h.names.count dp (by rw [hd]; simp)]
      exact Int.natCast_nonneg _
    have hm := madeDir_made (S := S) hne major
    rw [if_pos rfl, createDots_eq h.names.fits hdlt hn h0 hne hnl (hroom rfl)]
    refine hend ((h.claim_dir hfree hcount h0 hn hd hlive (hroom rfl) hne major).create_entry
      ⟨rfl, rfl, rfl, rfl⟩ ?_ ?_ ?_ ?_ fun _ => ⟨?_, hm.dotdot_self, ?_⟩)
    · rw [(hm.keeps hne).1]
      exact hd
    · rw [Node.lookup, (hm.keeps hne).2.1]
      exact hl
    · exact (hm.live_iff h.names hne hlive hd).mpr hlive
    · rw [hm.type]
      simp
    · grind [h.names.root]
    · show links S.ninodes (S.madeDir dp ip major).node ip = 0
      rw [hm.links h.names hfree hn hlive hd ip, (h.names.free ip h0 hfree).1, if_neg hne]
  · rw [if_neg ht]
    have hother : (S.claimed ip ((Node.fresh type).init major)).node dp = S.node dp :=
      update_of_ne hne ..
    have hself : (S.claimed ip ((Node.fresh type).init major)).node ip
        = (Node.fresh type).init major := update_self ..
    refine hend ((h.claim_plain hfree hcount h0 hn ht major).create_entry ⟨rfl, rfl, rfl, rfl⟩
      (by rw [hother]; exact hd) (by rw [hother]; exact hl) (by rw [hother]; exact hlive)
      (by rw [hself]; rintro ⟨⟩) fun hc => ?_)
    rw [hself] at hc
    exact absurd (Option.some.inj hc) ht

/-- A new entry for `path` is made in a directory with links, and a new
directory adds one to them. -/
def NameSys.MakesLive (S : NameSys np) (p : Fin np) (path : List Byte) (type : FileType) : Prop :=
  ∀ t ∈ S.resolve p path true, (S.node t.1).lookup t.2 = none →
    (S.node t.1).nlink ≠ 0 ∧ (type = .dir → (S.node t.1).nlink < 32767)

instance (S : NameSys np) (p : Fin np) (path : List Byte) (type : FileType) :
    Decidable (S.MakesLive p path type) :=
  inferInstanceAs (Decidable (∀ t ∈ S.resolve p path true, _))

/-- A call that is over and left the tables of the processes alone. -/
structure Done (strict : Prop) (S S' : NameSys np) : Prop where
  inv : Inv strict S' [] fun _ => 0
  procs : SameProcs S S'

/-- What `create` ends with. -/
def Created (strict : Prop) (S S' : NameSys np) : Option Nat → Prop
  | none => Done strict S S'
  | some ip => Holds strict S S' ip

theorem Holds.iput {S' : NameSys np} (h : Holds strict S S' ip) : Done strict S (S'.iput ip) :=
  ⟨h.inv.iput, h.procs.trans (iput_sameProcs S' ip)⟩

theorem Inv.create (h : Inv strict S [] fun _ => 0) {p : Fin np} (hlive : S.MakesLive p path type)
    (major : Int) :
    Ends (fun r => Created strict S r.2 r.1) (fun e => strict → e ≠ .noType)
      (S.create p path type major) := by
  refine (h.namex p path true).bind fun r hr => ?_
  obtain ⟨r, S₁⟩ := r
  obtain ⟨hres, hlook⟩ := hr
  cases r with
  | none => exact ⟨hlook.inv, hlook.procs⟩
  | some t =>
    obtain ⟨dp, nm⟩ := t
    have hd : (S₁.node dp).type = some .dir := by
      rw [hlook.node]
      exact resolve_parent hres.symm
    have hk₁ : KeptBy S₁ [] := h.keptBy.of_same hlook.procs hlook.node
    refine (hlook.inv.ilock fun hs => hlook.alloc hs rfl).bind fun S₂ hlock => ?_
    obtain ⟨h₂, hp₂, hn₂, -, -⟩ := hlock
    rw [← hn₂] at hd
    cases hl : (S₂.node dp).lookup nm with
    | none =>
      rw [dirlookup_none hd hl]
      have hlive₂ := hlive (dp, nm) hres.symm
      rw [← hlook.node, ← hn₂] at hlive₂
      replace hlive₂ := hlive₂ hl
      refine (h₂.createNew hd hl hlive₂.1 hlive₂.2 major).mono fun r hr => ?_
      obtain ⟨ip, hip, hholds⟩ := hr
      rw [hip]
      exact ⟨hholds.inv, (hlook.procs.trans hp₂).trans hholds.procs, hholds.alloc⟩
    | some k =>
      rw [dirlookup_some hd hl]
      have h₃ := (h₂.iget ((S₂.node dp).inumAt k)).perm (.swap ..)
      have hp₃ := iget_sameProcs S₂ ((S₂.node dp).inumAt k)
      have hk₃ : KeptBy (S₂.iget ((S₂.node dp).inumAt k)) [] :=
        hk₁.of_same (hp₂.trans hp₃) hn₂
      have hn₃ := h₃.iput_node (hk₃.cons _)
      refine (h₃.iput.ilock fun hs => ?_).bind fun S₄ hlock => ?_
      · rw [hn₃]
        exact h₂.names.found_alloc (h₂.up hs) hd hl
      · obtain ⟨h₄, hp₄, hn₄, halloc, -⟩ := hlock
        have hp := ((hlook.procs.trans hp₂).trans hp₃).trans
          ((iput_sameProcs _ dp).trans hp₄)
        split
        · exact ⟨h₄, hp, hn₄ ▸ halloc⟩
        · exact ⟨h₄.iput, hp.trans (iput_sameProcs S₄ _)⟩

/-- `sys_mkdir` and `sys_mknod`. -/
theorem Inv.sysMake (h : Inv strict S [] fun _ => 0) {p : Fin np} (hlive : S.MakesLive p path type)
    (major : Int) :
    Ends (fun r => Done strict S r.2) (fun e => strict → e ≠ .noType)
      (S.sysMake p path type major) := by
  refine (h.create hlive major).bind fun r hr => ?_
  obtain ⟨r, S₁⟩ := r
  cases r with
  | none => exact hr
  | some ip => exact Holds.iput hr

end Create

/-! ## `sys_link` -/

section Link

variable {S : NameSys np} {ip : Nat}

/-- A link that is made is made in a directory with links, and the count
of the file goes up. -/
def NameSys.LinksLive (S : NameSys np) (p : Fin np) (old new : List Byte) : Prop :=
  ∀ t ∈ S.resolve p old false, (S.node t.1).type ≠ some .dir →
    (S.node t.1).nlink < 32767 ∧ S.MakesLive p new .file

instance (S : NameSys np) (p : Fin np) (old new : List Byte) : Decidable (S.LinksLive p old new) :=
  inferInstanceAs (Decidable (∀ t ∈ S.resolve p old false, _))

/-- The count of an ordinary inode changes by a link that is counted
ahead, or no longer is. -/
theorem Inv.recount {pend pend' : Nat → Nat} {delta : Int} (h : Inv strict S l pend)
    (ha : (S.node ip).type ≠ none) (hplain : (S.node ip).type ≠ some .dir)
    (hcount : (S.node ip).nlink + delta = (links S.ninodes S.node ip + pend' ip : Nat))
    (hbound : (S.node ip).nlink + delta ≤ 32767)
    (hz : (S.node ip).nlink + delta = 0 → 0 < S.ref ip ∧ S.valid ip = true)
    (hpend : ∀ y ≠ ip, pend' y = pend y) :
    Inv strict (S.setNode ip ((S.node ip).addLinks delta)) l pend' := by
  have hnl : ((S.node ip).addLinks delta).nlink = (S.node ip).nlink + delta :=
    toShort_eq (by omega) hbound
  have htype : ∀ j, ((S.setNode ip ((S.node ip).addLinks delta)).node j).type
      = (S.node j).type := by
    intro j
    show (update S.node ip _ j).type = _
    by_cases hj : j = ip
    · rw [hj, update_self]
      rfl
    · rw [update_of_ne hj]
  refine h.relink (setNode_sameProcs ..) rfl rfl htype (fun j hzj => ?_)
    (h.names.recount ha hplain rfl rfl (hnl ▸ hbound) (hnl ▸ hcount) hpend)
    fun hs => (h.up hs).same_dirs (fun {d} hd => ?_) fun {d} hd => htype d ▸ hd
  · have hz' : (update S.node ip ((S.node ip).addLinks delta) j).nlink = 0 := hzj
    grind
  · refine update_of_ne ?_ ..
    rintro rfl
    exact hplain hd

/-- `ip->nlink++` before the entry is made. -/
theorem Inv.count_up (h : Inv strict S l fun _ => 0) (ha : (S.node ip).type ≠ none)
    (hplain : (S.node ip).type ≠ some .dir) (hroom : (S.node ip).nlink < 32767) :
    Inv strict (S.setNode ip ((S.node ip).addLinks 1)) l (pendOne ip) := by
  have hcount := h.names.count ip ha
  refine h.recount ha hplain ?_ (by omega) (by omega) fun y hy => pendOne_of_ne hy
  rw [pendOne_self]
  omega

/-- The label `bad`: the link is no longer counted. -/
theorem Inv.linkBad (h : Inv strict S [ip] (pendOne ip)) (ha : (S.node ip).type ≠ none)
    (hplain : (S.node ip).type ≠ some .dir) :
    Ends (fun r => Done strict S r.2) (fun e => strict → e ≠ .noType) (S.linkBad ip) := by
  refine (h.ilock fun _ => ha).bind fun S₁ hlock => ?_
  obtain ⟨h₁, hp₁, hn₁, -, hv⟩ := hlock
  rw [← hn₁] at ha hplain
  have hcount := h₁.names.count ip ha
  have hbound := h₁.names.bound ip ha
  rw [pendOne_self] at hcount
  have h₂ : Inv strict (S₁.setNode ip ((S₁.node ip).addLinks (-1))) [ip] fun _ => 0 :=
    h₁.recount ha hplain (by omega) (by omega) (fun _ => ⟨h₁.ref_pos, hv⟩) fun y hy =>
      (pendOne_of_ne hy).symm
  exact ⟨h₂.iput, (hp₁.trans (setNode_sameProcs ..)).trans (iput_sameProcs _ ip)⟩

theorem Done.trans {S₁ S' : NameSys np} (h : Done strict S₁ S') (hp : SameProcs S S₁) :
    Done strict S S' := ⟨h.inv, hp.trans h.procs⟩

/-- `sys_link` from the point where the count is up. -/
theorem Inv.link_entry {dp : Nat} {nm : Name} (h : Inv strict S [dp, ip] (pendOne ip))
    (hk : KeptBy S [ip]) (hd : (S.node dp).type = some .dir) (ha : (S.node ip).type ≠ none)
    (hplain : (S.node ip).type ≠ some .dir)
    (hlive : (S.node dp).lookup nm = none → (S.node dp).nlink ≠ 0) :
    Ends (fun r : Int × NameSys np => Done strict S r.2) (fun e => strict → e ≠ .noType) (do
      let (ok, S) ← S.dirlink dp nm ip
      if !ok then (S.iput dp).linkBad ip
      else .ok (0, (S.iput dp).iput ip)) := by
  cases hl : (S.node dp).lookup nm with
  | none =>
    rw [dirlink_new hd hl]
    have h₁ := h.enter hd hl (hlive hl) ha fun hc => absurd hc hplain
    exact ⟨h₁.iput.iput, (setNode_sameProcs S dp _).trans
      ((iput_sameProcs _ dp).trans (iput_sameProcs _ ip))⟩
  | some k =>
    rw [dirlink_old hd hl]
    have hn₁ := iget_iput_node S ((S.node dp).inumAt k)
    have h₁ := (h.iget ((S.node dp).inumAt k)).iput
    have hp₁ := (iget_sameProcs S ((S.node dp).inumAt k)).trans
      (iput_sameProcs _ ((S.node dp).inumAt k))
    have hn₂ := (h₁.iput_node (hk.of_same hp₁ hn₁)).trans hn₁
    rw [← hn₂] at ha hplain
    exact (h₁.iput.linkBad ha hplain).mono fun r hr => hr.trans (hp₁.trans (iput_sameProcs _ dp))

theorem Inv.sysLink (h : Inv strict S [] fun _ => 0) {p : Fin np} {old new : List Byte}
    (hlive : S.LinksLive p old new) :
    Ends (fun r => Done strict S r.2) (fun e => strict → e ≠ .noType) (S.sysLink p old new) := by
  refine (h.namex p old false).bind fun r hr => ?_
  obtain ⟨r, S₁⟩ := r
  obtain ⟨hres, hlook⟩ := hr
  cases r with
  | none => exact ⟨hlook.inv, hlook.procs⟩
  | some t =>
    obtain ⟨ip, nm₀⟩ := t
    have hlive := hlive (ip, nm₀) hres.symm
    refine (hlook.inv.ilock fun hs => hlook.alloc hs rfl).bind fun S₂ hlock => ?_
    obtain ⟨h₂, hp₂, hn₂, ha, -⟩ := hlock
    have hn : S₂.node = S.node := hn₂.trans hlook.node
    have hp := hlook.procs.trans hp₂
    rw [← hn₂] at ha
    split
    · exact ⟨h₂.iput, hp.trans (iput_sameProcs S₂ ip)⟩
    · rename_i hplain
      obtain ⟨hroom, hnew⟩ := hlive (hn ▸ hplain)
      rw [← hn] at hroom
      have h₃ := h₂.count_up ha hplain hroom
      have hself : (S₂.setNode ip ((S₂.node ip).addLinks 1)).node ip
          = (S₂.node ip).addLinks 1 := update_self ..
      have hother : ∀ {j}, j ≠ ip → (S₂.setNode ip ((S₂.node ip).addLinks 1)).node j
          = S.node j := fun hj => hn ▸ update_of_ne hj ..
      have hp₃ := hp.trans (setNode_sameProcs S₂ ip ((S₂.node ip).addLinks 1))
      -- the count does not change what the new path resolves to
      have hsame : (S₂.setNode ip ((S₂.node ip).addLinks 1)).resolve p new true
          = S.resolve p new true := by
        refine resolve_congr hp₃ (fun i => ?_) (fun i => ?_) p new true
        all_goals
          by_cases hi : i = ip
          · rw [hi, hself, ← hn]
            rfl
          · rw [hother hi]
      refine (h₃.namex p new true).bind fun r hr => ?_
      obtain ⟨r, S₄⟩ := r
      obtain ⟨hres₄, hlook₄⟩ := hr
      have ha₄ : (S₄.node ip).type ≠ none := by
        rw [hlook₄.node, hself]
        exact ha
      have hplain₄ : (S₄.node ip).type ≠ some .dir := by
        rw [hlook₄.node, hself]
        exact hplain
      have hp₄ := hp₃.trans hlook₄.procs
      cases r with
      | none => exact (hlook₄.inv.linkBad ha₄ hplain₄).mono fun r hr => hr.trans hp₄
      | some t =>
        obtain ⟨dp, nm⟩ := t
        rw [hsame] at hres₄
        have hd := resolve_parent hres₄.symm
        have hdp : dp ≠ ip := by grind
        have hdp₄ : S₄.node dp = S.node dp := by
          rw [hlook₄.node]
          exact hother hdp
        refine (hlook₄.inv.ilock fun hs => hlook₄.alloc hs rfl).bind fun S₅ hlock => ?_
        obtain ⟨h₅, hp₅, hn₅, -, -⟩ := hlock
        have hk := h₃.keptBy.of_same (hlook₄.procs.trans hp₅) (hn₅.trans hlook₄.node)
        have hnew := hnew (dp, nm) hres₄.symm
        rw [← hdp₄, ← hn₅] at hd
        rw [← hn₅] at ha₄ hplain₄
        refine (h₅.link_entry hk hd ha₄ hplain₄ fun hl => ?_).mono fun r hr =>
          hr.trans (hp₄.trans hp₅)
        grind

end Link

/-! ## `sys_unlink` -/

section Unlink

variable {S : NameSys np} {dp k ip : Nat} {e : Dirent}

/-- A directory that is removed is not the parent of another one; the
only ones left are those removed before and still in use. -/
def NameSys.RemovesTop (S : NameSys np) (p : Fin np) (path : List Byte) : Prop :=
  ∀ t ∈ S.resolve p path true, t.2 ≠ dotName → t.2 ≠ dotdotName →
    ∀ k ∈ (S.node t.1).lookup t.2, (S.node ((S.node t.1).inumAt k)).type = some .dir →
      (S.node ((S.node t.1).inumAt k)).isdirempty = true →
      ∀ d < S.ninodes, (S.node d).type = some .dir → (S.node d).dotdot ≠ (S.node t.1).inumAt k

instance (S : NameSys np) (p : Fin np) (path : List Byte) : Decidable (S.RemovesTop p path) :=
  inferInstanceAs (Decidable (∀ t ∈ S.resolve p path true, _))

/-- The parent after `sys_unlink`. -/
def Node.unlinked (nd : Node) (k : Nat) (dir : Bool) : Node :=
  if dir then (nd.erase k).addLinks (-1) else nd.erase k

theorem Node.unlinked_type (nd : Node) (k : Nat) (dir : Bool) :
    (nd.unlinked k dir).type = nd.type := by
  unfold Node.unlinked
  split <;> rfl

theorem Node.unlinked_ents (nd : Node) (k : Nat) (dir : Bool) :
    (nd.unlinked k dir).ents = (nd.erase k).ents := by
  unfold Node.unlinked
  split <;> rfl

/-- The two nodes `sys_unlink` changes. -/
def NameSys.removed (S : NameSys np) (dp k ip : Nat) : NameSys np :=
  (S.setNode dp ((S.node dp).unlinked k (decide ((S.node ip).type = some .dir)))).setNode ip
    ((S.node ip).addLinks (-1))

theorem isdirempty_iff {nd : Node} : nd.isdirempty = true ↔ ∀ e ∈ nd.rest, e.inum = 0 := by
  unfold Node.isdirempty Node.rest
  simp

theorem Names.removed_spec (h : Names S.ninodes S.node fun _ => 0)
    (hd : (S.node dp).type = some .dir) (hk : (S.node dp).rest[k]? = some e) (hip : e.inum = ip)
    (h0 : ip ≠ 0)
    (hempty : (S.node ip).type = some .dir → ∀ e' ∈ (S.node ip).rest, e'.inum = 0) :
    Removed S.node (S.removed dp (k + 2) ip).node dp k ip := by
  subst hip
  have he := mem_of_getElem? hk
  have hne := Names.entry_ne h0 hd he hempty
  have hdots := h.dots dp hd
  have hpos := h.nlink_pos_of_links h0 (h.links_pos_of_entry hd he)
  have hbound := h.bound _ (h.alloc_of_links h0 (h.links_pos_of_entry hd he))
  have hself : (S.removed dp (k + 2) e.inum).node e.inum = (S.node e.inum).addLinks (-1) :=
    update_self ..
  have hdp : (S.removed dp (k + 2) e.inum).node dp
      = (S.node dp).unlinked (k + 2) (decide ((S.node e.inum).type = some .dir)) := by
    show update (update S.node dp _) e.inum _ dp = _
    rw [update_of_ne hne.symm, update_self]
  have hother : ∀ {i}, i ≠ dp → i ≠ e.inum → (S.removed dp (k + 2) e.inum).node i = S.node i := by
    intro i hi hie
    show update (update S.node dp _) e.inum _ i = _
    grind
  have hdpents := (congrArg Node.ents hdp).trans (Node.unlinked_ents ..)
  refine ⟨fun i => ?_, fun i => ?_, ?_, hdots.erase.of_ents hdpents, fun {i} hi => ?_, fun i => ?_⟩
  · by_cases hid : i = dp
    · rw [hid, hdp, Node.unlinked_type]
    · by_cases hie : i = e.inum
      · rw [hie, hself]
        rfl
      · rw [hother hid hie]
  · by_cases hid : i = dp
    · rw [hid, Node.dotdot_of_ents hdpents, hdots.erase_dotdot]
    · by_cases hie : i = e.inum
      · rw [hie, hself]
        rfl
      · rw [hother hid hie]
  · rw [Node.rest, hdpents]
    exact hdots.erase_rest
  · by_cases hie : i = e.inum
    · rw [hie, hself]
      rfl
    · rw [hother hi hie]
  · by_cases hid : i = dp
    · rw [hid, hdp, if_neg hne.symm]
      by_cases hdir : (S.node e.inum).type = some .dir
      · have h2 := h.two_le_nlink hd he hdir (hempty hdir)
        have hb := h.bound dp (by rw [hd]; simp)
        rw [if_pos ⟨rfl, hdir⟩, Node.unlinked, if_pos (decide_eq_true hdir)]
        show toShort ((S.node dp).nlink + -1) = _
        rw [toShort_eq (by omega) (by omega)]
        omega
      · rw [if_neg fun hc => hdir hc.2, Node.unlinked,
          if_neg (by rw [decide_eq_false hdir]; exact Bool.false_ne_true)]
        show (S.node dp).nlink = _
        omega
    · by_cases hie : i = e.inum
      · rw [hie, hself, if_pos rfl, if_neg fun hc => hne hc.1]
        show toShort ((S.node e.inum).nlink + -1) = _
        rw [toShort_eq (by omega) (by omega)]
        omega
      · grind

/-- The statements of `sys_unlink` that change the two nodes. -/
theorem unlinkAt_eq (hne : ip ≠ dp) (hpos : ¬(S.node ip).nlink < 1)
    (hempty : ¬((S.node ip).type = some .dir ∧ !(S.node ip).isdirempty))
    (hlive : ((S.removed dp k ip).node dp).nlink ≠ 0) :
    S.unlinkAt dp k ip = .ok (0, ((S.removed dp k ip).iput dp).iput ip) := by
  have hip : (S.setNode dp ((S.node dp).erase k)).node ip = S.node ip :=
    update_of_ne hne ..
  have hparent : (if ((S.setNode dp ((S.node dp).erase k)).node ip).type = some .dir then
        (S.setNode dp ((S.node dp).erase k)).setNode dp
          (((S.setNode dp ((S.node dp).erase k)).node dp).addLinks (-1))
      else S.setNode dp ((S.node dp).erase k))
      = S.setNode dp ((S.node dp).unlinked k (decide ((S.node ip).type = some .dir))) := by
    have hdp : (S.setNode dp ((S.node dp).erase k)).node dp = (S.node dp).erase k :=
      update_self ..
    rw [hip, hdp, setNode_setNode, Node.unlinked]
    simp only [decide_eq_true_eq]
    split <;> rfl
  have hlive' : ((S.setNode dp ((S.node dp).unlinked k
      (decide ((S.node ip).type = some .dir)))).node dp).nlink ≠ 0 := by
    have : (S.removed dp k ip).node dp = (S.setNode dp ((S.node dp).unlinked k
        (decide ((S.node ip).type = some .dir)))).node dp := update_of_ne hne.symm ..
    rwa [this] at hlive
  unfold NameSys.unlinkAt
  rw [if_neg hpos, if_neg hempty]
  dsimp only
  rw [hparent, iput_eq hlive', iput_eq hlive]
  have hip' : (S.setNode dp ((S.node dp).unlinked k
      (decide ((S.node ip).type = some .dir)))).node ip = S.node ip := update_of_ne hne ..
  rw [hip']
  rfl

theorem Inv.unlinkAt (h : Inv strict S [ip, dp] fun _ => 0) (hd : (S.node dp).type = some .dir)
    (hk : (S.node dp).rest[k]? = some e) (hip : e.inum = ip) (h0 : ip ≠ 0)
    (hv : S.valid ip = true) (htop : strict → (S.node ip).type = some .dir →
      (S.node ip).isdirempty = true →
      ∀ d < S.ninodes, (S.node d).type = some .dir → (S.node d).dotdot ≠ ip) :
    Ends (fun r => Done strict S r.2) (fun e => strict → e ≠ .noType)
      (S.unlinkAt dp (k + 2) ip) := by
  by_cases hnl : (S.node ip).nlink < 1
  · unfold NameSys.unlinkAt
    rw [if_pos hnl]
    exact fun _ => nofun
  by_cases hfull : (S.node ip).type = some .dir ∧ !(S.node ip).isdirempty
  · unfold NameSys.unlinkAt
    rw [if_neg hnl, if_pos hfull]
    exact ⟨h.iput.iput, (iput_sameProcs S ip).trans (iput_sameProcs _ dp)⟩
  · have hdirempty : (S.node ip).type = some .dir → (S.node ip).isdirempty = true := fun hdir => by
      by_contra hc
      grind
    have hempty : (S.node ip).type = some .dir → ∀ e' ∈ (S.node ip).rest, e'.inum = 0 :=
      fun hdir => isdirempty_iff.mp (hdirempty hdir)
    have he := mem_of_getElem? hk
    have ht := h.names.removed_spec hd hk hip h0 hempty
    have hlive := ht.parent_live h.names hd he hip h0 hempty
    have hne : ip ≠ dp := hip ▸ Names.entry_ne (hip ▸ h0) hd he (hip ▸ hempty)
    rw [unlinkAt_eq hne hnl hfull hlive]
    have h₁ : Inv strict (S.removed dp (k + 2) ip) [dp, ip] fun _ => 0 := by
      refine (h.perm (.swap ..)).relink ((setNode_sameProcs S dp _).trans (setNode_sameProcs ..))
        rfl rfl ht.type (fun j hz => ?_) (Names.remove ht h.names hd hk hip h0 hempty) fun hs =>
          (h.up hs).removed ht hlive fun hdir d hdd =>
            htop hs hdir (hdirempty hdir) d (h.names.lt_of_dir hdd) hdd
      by_cases hj : j = ip
      · rw [hj]
        exact .inr ⟨h.ref_pos, hv⟩
      · by_cases hjd : j = dp
        · exact absurd (hjd ▸ hz) hlive
        · rw [ht.nlink, if_neg hj, if_neg fun hc => hjd hc.1, Int.sub_zero, Int.sub_zero] at hz
          exact .inl hz
    exact ⟨h₁.iput.iput, ((setNode_sameProcs S dp _).trans (setNode_sameProcs ..)).trans
      ((iput_sameProcs _ dp).trans (iput_sameProcs _ ip))⟩

theorem Inv.sysUnlink (h : Inv strict S [] fun _ => 0) {p : Fin np}
    (htop : strict → S.RemovesTop p path) :
    Ends (fun r => Done strict S r.2) (fun e => strict → e ≠ .noType) (S.sysUnlink p path) := by
  refine (h.namex p path true).bind fun r hr => ?_
  obtain ⟨r, S₁⟩ := r
  obtain ⟨hres, hlook⟩ := hr
  cases r with
  | none => exact ⟨hlook.inv, hlook.procs⟩
  | some t =>
    obtain ⟨dp, nm⟩ := t
    have hd : (S₁.node dp).type = some .dir := by
      rw [hlook.node]
      exact resolve_parent hres.symm
    refine (hlook.inv.ilock fun hs => hlook.alloc hs rfl).bind fun S₂ hlock => ?_
    obtain ⟨h₂, hp₂, hn₂, -, -⟩ := hlock
    have hn : S₂.node = S.node := hn₂.trans hlook.node
    have hp := hlook.procs.trans hp₂
    have hput : Done strict S (S₂.iput dp) := ⟨h₂.iput, hp.trans (iput_sameProcs S₂ dp)⟩
    rw [← hn₂] at hd
    split
    · exact hput
    · rename_i hnm
      rw [not_or] at hnm
      cases hl : (S₂.node dp).lookup nm with
      | none =>
        rw [dirlookup_none hd hl]
        exact hput
      | some k =>
        rw [dirlookup_some hd hl]
        -- the name is not one of the dots
        obtain ⟨j, e, rfl, hget, he0, -, hinum⟩ :
            ∃ j e, k = j + 2 ∧ (S₂.node dp).rest[j]? = some e ∧ e.inum ≠ 0 ∧ e.name = nm
              ∧ (S₂.node dp).inumAt k = e.inum := by
          rcases (h₂.names.dots dp hd).lookup_cases hl with ⟨-, hc, -⟩ | ⟨-, hc, -⟩ | hc
          · exact absurd hc hnm.1
          · exact absurd hc hnm.2
          · exact hc
        have h₃ := h₂.iget ((S₂.node dp).inumAt (j + 2))
        refine (h₃.ilock fun hs => ?_).bind fun S₄ hlock => ?_
        · exact h₂.names.found_alloc (h₂.up hs) hd hl
        · obtain ⟨h₄, hp₄, hn₄, -, hv⟩ := hlock
          have hn₄' : S₄.node = S₂.node := hn₄
          have hp₃ := (hp.trans (iget_sameProcs S₂ _)).trans hp₄
          refine (h₄.unlinkAt (by rw [hn₄']; exact hd) (by rw [hn₄']; exact hget) hinum.symm
            (by rw [hinum]; exact he0) hv fun hs => ?_).mono fun r hr => hr.trans hp₃
          have htop' := htop hs (dp, nm) hres.symm hnm.1 hnm.2
          rw [← hn] at htop'
          rw [hn₄', hp₃.ninodes]
          exact htop' _ hl

end Unlink

end Xv6
