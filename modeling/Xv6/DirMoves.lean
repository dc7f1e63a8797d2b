import Xv6.DirNames

/-!
# Transitions of the name space

What the calls do to the inodes, one transition at a time: a count
changed ahead of its entry, a new inode, a new entry, a removed entry, a
freed inode. Each keeps `Names`; and each keeps `Up`, if no directory
that is the `..` of another one is removed.
-/

namespace Xv6

open Function Tally List Nat

/-! ## Transitions -/

variable {d y i : Nat}

section Transitions

variable {n : Nat} {N : Nat → Node} {pend pend' : Nat → Nat} {dp x : Nat}

/-- A change that leaves every directory alone. -/
theorem Names.same_dirs {N' : Nat → Node} (h : Names n N pend)
    (hdir : ∀ {d}, (N d).type = some .dir → N' d = N d)
    (hdir' : ∀ {d}, (N' d).type = some .dir → (N d).type = some .dir)
    (hrange : ∀ i, (N' i).type ≠ none → 0 < i ∧ i < n)
    (hplain : ∀ i, (N i).type ≠ some .dir → (N' i).ents = [])
    (hcount : ∀ x, (N' x).type ≠ none → (N x).type ≠ some .dir →
      (N' x).nlink = (links n N x + pend' x : Nat) ∧ (N' x).nlink ≤ 32767)
    (hfree : ∀ x, 0 < x → (N' x).type = none → links n N x = 0 ∧ pend' x = 0)
    (hpend : ∀ d, (N d).type = some .dir → pend' d = pend d) : Names n N' pend' := by
  have hlinks : ∀ y, links n N' y = links n N y := fun y => by
    refine links_congr fun j => ?_
    by_cases hj : (N j).type = some .dir
    · rw [hdir hj]
    · rw [Node.linksTo_of_not_dir hj, Node.linksTo_of_not_dir (mt hdir' hj)]
  refine ⟨h.fits, hrange, fun i hi => hplain i fun hd => hi (by rw [hdir hd, hd]), fun d hd => ?_,
    fun d hd hz e he => ?_, fun y hy => ?_, fun y hy => ?_, fun y hy hnone => ?_,
    fun d hd e he hc => ?_, fun d c hd hc => ?_, fun c hc hl hr hp => ?_, ?_, ?_, ?_, ⟨?_, ?_⟩, ?_⟩
  · rw [hdir (hdir' hd)]
    exact h.dots d (hdir' hd)
  · rw [hdir (hdir' hd)] at hz he
    exact h.clean d (hdir' hd) hz e he
  · rw [hlinks]
    by_cases hd : (N y).type = some .dir
    · rw [hdir hd] at hy ⊢
      rw [hpend y hd]
      exact h.count y hy
    · exact (hcount y hy hd).1
  · by_cases hd : (N y).type = some .dir
    · rw [hdir hd] at hy ⊢
      exact h.bound y hy
    · exact (hcount y hy hd).2
  · rw [hlinks]
    exact hfree y hy hnone
  · rw [hdir (hdir' hd)] at he
    rw [hdir (hdir' hc)]
    exact h.parent d (hdir' hd) e he (hdir' hc)
  · rw [hdir (hdir' hd)]
    exact h.once d c (hdir' hd) (hdir' hc)
  · rw [hdir (hdir' hc)] at hl ⊢
    obtain ⟨hup, e, he, hec⟩ := h.named c (hdir' hc) hl hr (hpend c (hdir' hc) ▸ hp)
    grind
  · rw [hdir h.root]
    exact h.root
  · rw [hdir h.root]
    exact h.root_up
  · rw [hdir h.root]
    exact h.root_live
  · rw [hpend ROOTINO h.root]
    exact h.root_named.1
  · intro d hd e he
    rw [hdir (hdir' hd)] at he
    exact h.root_named.2 d (hdir' hd) e he
  · obtain ⟨depth, hdepth⟩ := h.ranked
    refine ⟨depth, fun c hc hl hr => ?_⟩
    grind

/-- The count of an inode that is no directory changes; `pend` says by
how much it is ahead of the entries. -/
theorem Names.recount (h : Names n N pend) (hx : (N x).type ≠ none)
    (hplain : (N x).type ≠ some .dir) {nd : Node} (htype : nd.type = (N x).type)
    (hents : nd.ents = (N x).ents) (hbound : nd.nlink ≤ 32767)
    (hcount : nd.nlink = (links n N x + pend' x : Nat)) (hpend : ∀ y ≠ x, pend' y = pend y) :
    Names n (update N x nd) pend' := by
  have hty : ∀ i, (update N x nd i).type = (N i).type := fun i => by grind
  have hne : ∀ {d}, (N d).type = some .dir → d ≠ x := by
    rintro d hd rfl
    exact hplain hd
  refine h.same_dirs (fun hd => update_of_ne (hne hd) ..)
    (fun {d} hd => hty d ▸ hd) (fun i hi => h.range i (hty i ▸ hi)) (fun i hi => ?_)
    (fun y hy hyd => ?_) (fun y hy hnone => ?_) fun d hd => hpend d (hne hd)
  · by_cases hix : i = x
    · rw [hix, update_self, hents, h.plain x hplain]
    · rw [update_of_ne hix]
      exact h.plain i hi
  · by_cases hyx : y = x
    · grind
    · rw [hty] at hy
      rw [update_of_ne hyx, hpend y hyx]
      exact ⟨h.count y hy, h.bound y hy⟩
  · rw [hty] at hnone
    rw [hpend y fun hyx => hx (hyx ▸ hnone)]
    exact h.free y hy hnone

/-- A new inode that is no directory. -/
theorem Names.alloc_plain (h : Names n N pend) (hx : (N x).type = none) (h0 : 0 < x) (hn : x < n)
    {nd : Node} (htype : nd.type ≠ none) (hplain : nd.type ≠ some .dir) (hents : nd.ents = [])
    (hnlink : nd.nlink = 1) (hpx : pend' x = 1) (hpend : ∀ y ≠ x, pend' y = pend y) :
    Names n (update N x nd) pend' := by
  have hne : ∀ {d}, (N d).type = some .dir → d ≠ x := by grind
  refine h.same_dirs (fun hd => update_of_ne (hne hd) ..)
    (fun {d} hd => ?_) (fun i hi => ?_) (fun i hi => ?_) (fun y hy hyd => ?_)
    (fun y hy hnone => ?_) fun d hd => hpend d (hne hd)
  · grind
  · by_cases hix : i = x
    · exact hix ▸ ⟨h0, hn⟩
    · rw [update_of_ne hix] at hi
      exact h.range i hi
  · by_cases hix : i = x
    · rw [hix, update_self, hents]
    · rw [update_of_ne hix]
      exact h.plain i hi
  · by_cases hyx : y = x
    · rw [hyx, update_self, hnlink, (h.free x h0 hx).1, hpx]
      decide
    · rw [update_of_ne hyx] at hy ⊢
      rw [hpend y hyx]
      exact ⟨h.count y hy, h.bound y hy⟩
  · have hyx : y ≠ x := by grind
    rw [update_of_ne hyx] at hnone
    rw [hpend y hyx]
    exact h.free y hy hnone

/-- Entry `e` was added to directory `dp`. -/
structure Entered (N N' : Nat → Node) (dp : Nat) (e : Dirent) : Prop where
  type : ∀ i, (N' i).type = (N i).type
  nlink : ∀ i, (N' i).nlink = (N i).nlink
  dotdot : ∀ i, (N' i).dotdot = (N i).dotdot
  rest : (N' dp).rest = enter (N dp).rest e
  dots : (N' dp).Dots dp
  other : ∀ {i}, i ≠ dp → N' i = N i

theorem Names.entered (h : Names n N pend) (hdp : (N dp).type = some .dir) {e : Dirent}
    (he : e.name ≠ dotName ∧ e.name ≠ dotdotName) :
    Entered N (update N dp ((N dp).link e)) dp e := by
  have hd0 := h.ne_zero_of_dir hdp
  have hdots := h.dots dp hdp
  refine ⟨fun i => ?_, fun i => ?_, fun i => ?_, ?_, ?_, fun hi => update_of_ne hi ..⟩
  · by_cases hi : i = dp
    · rw [hi, update_self]
      rfl
    · rw [update_of_ne hi]
  · by_cases hi : i = dp
    · rw [hi, update_self]
      rfl
    · rw [update_of_ne hi]
  · by_cases hi : i = dp
    · rw [hi, update_self, hdots.link_dotdot hd0]
    · rw [update_of_ne hi]
  · rw [update_self, hdots.link_rest hd0]
  · rw [update_self]
    exact hdots.link hd0 he

theorem Entered.mem {N' : Nat → Node} {e e' : Dirent} (ht : Entered N N' dp e)
    (he : e' ∈ (N' d).rest) : d = dp ∧ e' = e ∨ e' ∈ (N d).rest := by
  by_cases hd : d = dp
  · simp_all [hd, ht.rest, mem_enter]
  · rw [ht.other hd] at he
    exact .inr he

theorem Entered.links {N' : Nat → Node} {e : Dirent} (ht : Entered N N' dp e) (h : Names n N pend)
    (hdp : (N dp).type = some .dir) (hy : y ≠ 0) :
    Xv6.links n N' y = Xv6.links n N y + if e.inum = y then 1 else 0 := by
  have hoff := links_off N N' y (h.lt_of_dir hdp) fun j hj => by
    rw [ht.other hj]
  rw [Node.linksTo_dir ((ht.type dp).trans hdp), Node.linksTo_dir hdp, ht.rest, ht.nlink, ht.dotdot,
    namesOf_enter hy] at hoff
  omega

theorem Names.namesOf_le_links (h : Names n N pend) (hd : (N d).type = some .dir) (c : Nat) :
    namesOf (N d).rest c ≤ links n N c := by
  have := le_links (N := N) (y := c) (h.lt_of_dir hd)
  rw [Node.linksTo_dir hd] at this
  omega

/-- A pending link of `x` is entered in the directory `dp`. A directory
is entered in its parent, and was not entered before. -/
theorem Names.enter {N' : Nat → Node} (h : Names n N pend) {nm : Name}
    (ht : Entered N N' dp ⟨x, nm⟩) (hdp : (N dp).type = some .dir) (hlive : (N dp).nlink ≠ 0)
    (hx : (N x).type ≠ none) (hdir : (N x).type = some .dir →
      x ≠ ROOTINO ∧ (N x).dotdot = dp ∧ links n N x = 0)
    (hpx : pend x = pend' x + 1) (hpend : ∀ y ≠ x, pend' y = pend y) : Names n N' pend' := by
  refine ⟨h.fits, fun i hi => h.range i (ht.type i ▸ hi), fun i hi => ?_, fun d hd => ?_,
    fun d hd hz e he => ?_, fun y hy => ?_, fun y hy => ?_, fun y hy hnone => ?_,
    fun d hd e he hc => ?_, fun d c hd hc => ?_, fun c hc hl hr hp => ?_, ?_, ?_, ?_, ⟨?_, ?_⟩, ?_⟩
  · rw [ht.type] at hi
    have hidp : i ≠ dp := by
      rintro rfl
      exact hi hdp
    rw [ht.other hidp]
    exact h.plain i hi
  · rw [ht.type] at hd
    by_cases hddp : d = dp
    · exact hddp ▸ ht.dots
    · rw [ht.other hddp]
      exact h.dots d hd
  · rw [ht.type] at hd
    rw [ht.nlink] at hz
    rcases ht.mem he with ⟨rfl, -⟩ | he
    · exact absurd hz hlive
    · exact h.clean d hd hz e he
  · rw [ht.type] at hy
    rw [ht.nlink, ht.links h hdp (ne_of_gt (h.range y hy).1), h.count y hy]
    grind
  · rw [ht.type] at hy
    rw [ht.nlink]
    exact h.bound y hy
  · rw [ht.type] at hnone
    have hyx : y ≠ x := fun hyx => hx (hyx ▸ hnone)
    rw [ht.links h hdp (ne_of_gt hy), if_neg hyx.symm, hpend y hyx]
    exact h.free y hy hnone
  · rw [ht.type] at hd hc
    rw [ht.dotdot]
    rcases ht.mem he with ⟨rfl, rfl⟩ | he
    · exact (hdir hc).2.1
    · exact h.parent d hd e he hc
  · rw [ht.type] at hd hc
    by_cases hddp : d = dp
    · rw [hddp, ht.rest, namesOf_enter (h.ne_zero_of_dir hc)]
      by_cases hxc : x = c
      · have := h.namesOf_le_links hdp x
        grind
      · rw [if_neg hxc]
        exact h.once dp c hdp hc
    · rw [ht.other hddp]
      exact h.once d c hd hc
  · rw [ht.type] at hc
    rw [ht.nlink] at hl
    rw [ht.dotdot, ht.type]
    by_cases hcx : c = x
    · subst hcx
      grind [(hdir hc).2.1, ht.rest, mem_enter_self]
    · obtain ⟨hup, e, he, hec⟩ := h.named c hc hl hr (hpend c hcx ▸ hp)
      refine ⟨hup, e, ?_, hec⟩
      by_cases hupdp : (N c).dotdot = dp
      · rw [hupdp, ht.rest]
        rw [hupdp] at he
        exact mem_enter_of_mem he (hec ▸ h.ne_zero_of_dir hc)
      · rwa [ht.other hupdp]
  · rw [ht.type]
    exact h.root
  · rw [ht.dotdot]
    exact h.root_up
  · rw [ht.nlink]
    exact h.root_live
  · by_cases hxr : ROOTINO = x
    · exact absurd hxr.symm (hdir (hxr ▸ h.root)).1
    · rw [hpend ROOTINO hxr]
      exact h.root_named.1
  · intro d hd e he
    rw [ht.type] at hd
    rcases ht.mem he with ⟨-, rfl⟩ | he
    · rintro rfl
      exact (hdir h.root).1 rfl
    · exact h.root_named.2 d hd e he
  · obtain ⟨depth, hdepth⟩ := h.ranked
    refine ⟨depth, fun c hc hl hr => ?_⟩
    simp_all [ht.type, ht.nlink, ht.dotdot]

/-- `x` became a directory below `dp`, counted in `dp` and not yet
entered there. -/
structure MadeDir (N N' : Nat → Node) (dp x : Nat) : Prop where
  type : (N' x).type = some .dir
  nlink : (N' x).nlink = 1
  ents : (N' x).ents = [⟨x, dotName⟩, ⟨dp, dotdotName⟩]
  up : N' dp = { N dp with nlink := (N dp).nlink + 1 }
  other : ∀ {i}, i ≠ x → i ≠ dp → N' i = N i

section MadeDir

variable {N' : Nat → Node} (ht : MadeDir N N' dp x)

include ht

theorem MadeDir.rest_self : (N' x).rest = [] := by
  rw [Node.rest, ht.ents]
  rfl

theorem MadeDir.dotdot_self : (N' x).dotdot = dp := by
  rw [Node.dotdot, Node.inumAt, ht.ents]
  rfl

/-- The nodes other than `x` keep all but the count of `dp`. -/
theorem MadeDir.keeps (hi : i ≠ x) : (N' i).type = (N i).type
    ∧ (N' i).ents = (N i).ents ∧ (N' i).nlink = (N i).nlink + if i = dp then 1 else 0 := by
  by_cases hid : i = dp
  · simp [hid, ht.up]
  · simp [ht.other hi hid, hid, Int.add_zero]

theorem MadeDir.rest (hi : i ≠ x) : (N' i).rest = (N i).rest := by
  rw [Node.rest, (ht.keeps hi).2.1, Node.rest]

theorem MadeDir.dotdot (hi : i ≠ x) : (N' i).dotdot = (N i).dotdot := by
  rw [Node.dotdot, Node.inumAt, (ht.keeps hi).2.1, Node.dotdot, Node.inumAt]

/-- Having links does not change. -/
theorem MadeDir.live_iff (h : Names n N pend) (hi : i ≠ x) (hdp : (N dp).nlink ≠ 0)
    (hd : (N dp).type = some .dir) : (N' i).nlink ≠ 0 ↔ (N i).nlink ≠ 0 := by
  rw [(ht.keeps hi).2.2]
  by_cases hid : i = dp
  · have := h.count dp (by rw [hd]; exact nofun)
    grind
  · rw [if_neg hid, Int.add_zero]

theorem MadeDir.links (h : Names n N pend) (hx : (N x).type = none) (hn : x < n)
    (hdp : (N dp).nlink ≠ 0) (hd : (N dp).type = some .dir) (y : Nat) :
    Xv6.links n N' y = Xv6.links n N y + if dp = y then 1 else 0 := by
  have hoff := links_off N N' y hn fun j hj => by
    unfold Node.linksTo
    rw [(ht.keeps hj).1, ht.rest hj, ht.dotdot hj]
    simp only [ht.live_iff h hj hdp hd]
  rw [Node.linksTo_dir ht.type, Node.linksTo_of_not_dir (by rw [hx]; exact nofun), ht.rest_self,
    ht.dotdot_self, ht.nlink] at hoff
  have hnil : namesOf [] y = 0 := rfl
  simp only [hnil, ne_eq, one_ne_zero, not_false_eq_true, true_and] at hoff
  omega

theorem Names.alloc_dir (h : Names n N pend) (hx : (N x).type = none) (h0 : 0 < x) (hn : x < n)
    (hd : (N dp).type = some .dir) (hdp : (N dp).nlink ≠ 0) (hroom : (N dp).nlink < 32767)
    (hpx : pend' x = 1) (hpend : ∀ y ≠ x, pend' y = pend y) : Names n N' pend' := by
  have hdpx : dp ≠ x := by
    rintro rfl
    rw [hx] at hd
    cases hd
  have hx0 := (h.free x h0 hx).1
  have hlinks := ht.links h hx hn hdp hd
  -- no entry and no counted `..` names the new inode
  have hfresh : ∀ {d e}, (N d).type = some .dir → e ∈ (N d).rest → e.inum ≠ x := by
    rintro d e hd he rfl
    have := h.links_pos_of_entry hd he
    omega
  have hty : ∀ {i}, i ≠ x → (N' i).type = (N i).type := fun hi => (ht.keeps hi).1
  have hrx : ROOTINO ≠ x := by
    rintro rfl
    have := h.root
    rw [hx] at this
    cases this
  have hlive : ∀ {i}, i ≠ x → ((N' i).nlink ≠ 0 ↔ (N i).nlink ≠ 0) := fun hi =>
    ht.live_iff h hi hdp hd
  refine ⟨h.fits, fun i hi => ?_, fun i hi => ?_, fun d hd => ?_, fun d hd hz e he => ?_,
    fun y hy => ?_, fun y hy => ?_, fun y hy hnone => ?_, fun d hd e he hc => ?_,
    fun d c hd hc => ?_, fun c hc hl hr hp => ?_, ?_, ?_, ?_, ⟨?_, fun d hd e he => ?_⟩, ?_⟩
  · by_cases hix : i = x
    · exact hix ▸ ⟨h0, hn⟩
    · exact h.range i (hty hix ▸ hi)
  · have hix : i ≠ x := by
      rintro rfl
      exact hi ht.type
    rw [(ht.keeps hix).2.1]
    exact h.plain i (hty hix ▸ hi)
  · by_cases hdx : d = x
    · subst hdx
      refine ⟨?_, ?_, fun e he => ?_⟩
      · rw [ht.ents, ht.dotdot_self, ht.rest_self]
      · rw [ht.dotdot_self]
        exact h.ne_zero_of_dir ‹(N dp).type = some .dir›
      · rw [ht.rest_self] at he
        cases he
    · obtain ⟨h1, h2, h3⟩ := h.dots d (hty hdx ▸ hd)
      refine ⟨?_, ?_, ?_⟩
      · rw [(ht.keeps hdx).2.1, ht.dotdot hdx, ht.rest hdx]
        exact h1
      · rw [ht.dotdot hdx]
        exact h2
      · rw [ht.rest hdx]
        exact h3
  · by_cases hdx : d = x
    · rw [hdx, ht.nlink] at hz
      cases hz
    · rw [ht.rest hdx] at he
      exact h.clean d (hty hdx ▸ hd) (by_contra fun hne => (hlive hdx).mpr hne hz) e he
  · rw [hlinks]
    by_cases hyx : y = x
    · rw [hyx, ht.nlink, hpx, hx0, if_neg hdpx]
      rfl
    · rw [(ht.keeps hyx).2.2, h.count y (hty hyx ▸ hy), hpend y hyx]
      grind
  · by_cases hyx : y = x
    · rw [hyx, ht.nlink]
      decide
    · have := h.bound y (hty hyx ▸ hy)
      rw [(ht.keeps hyx).2.2]
      grind
  · have hyx : y ≠ x := by grind [ht.type]
    rw [hty hyx] at hnone
    have hyd : dp ≠ y := by grind
    rw [hlinks, if_neg hyd, hpend y hyx]
    exact h.free y hy hnone
  · by_cases hdx : d = x
    · rw [hdx, ht.rest_self] at he
      cases he
    · rw [ht.rest hdx] at he
      have hd' := hty hdx ▸ hd
      have hex := hfresh hd' he
      rw [ht.dotdot hex]
      exact h.parent d hd' e he (hty hex ▸ hc)
  · by_cases hdx : d = x
    · rw [hdx, ht.rest_self]
      exact zero_le _
    · rw [ht.rest hdx]
      have hd' := hty hdx ▸ hd
      by_cases hcx : c = x
      · have := h.namesOf_le_links hd' c
        rw [hcx] at this ⊢
        omega
      · exact h.once d c hd' (hty hcx ▸ hc)
  · have hcx : c ≠ x := by
      rintro rfl
      omega
    obtain ⟨hup, e, he, hec⟩ := h.named c (hty hcx ▸ hc) ((hlive hcx).mp hl) hr (hpend c hcx ▸ hp)
    have hupx : (N c).dotdot ≠ x := fun heq => by
      rw [heq, hx] at hup
      cases hup
    rw [ht.dotdot hcx, hty hupx, ht.rest hupx]
    exact ⟨hup, e, he, hec⟩
  · rw [hty hrx]
    exact h.root
  · rw [ht.dotdot hrx]
    exact h.root_up
  · exact (hlive hrx).mpr h.root_live
  · rw [hpend ROOTINO hrx]
    exact h.root_named.1
  · by_cases hdx : d = x
    · rw [hdx, ht.rest_self] at he
      cases he
    · rw [ht.rest hdx] at he
      exact h.root_named.2 d (hty hdx ▸ hd) e he
  · obtain ⟨depth, hdepth⟩ := h.ranked
    refine ⟨update depth x (depth dp + 1), fun c hc hl hr => ?_⟩
    by_cases hcx : c = x
    · rw [hcx, ht.dotdot_self, update_self, update_of_ne hdpx]
      exact lt_succ_self _
    · have hc' := hty hcx ▸ hc
      have hl' := (hlive hcx).mp hl
      have hupx : (N c).dotdot ≠ x := fun heq => by
        have := h.links_pos_of_up hc' hl'
        rw [heq] at this
        omega
      rw [ht.dotdot hcx, update_of_ne hcx, update_of_ne hupx]
      exact hdepth c hc' hl' hr

end MadeDir

/-- An inode without links is freed. -/
theorem Names.freed (h : Names n N pend) (hx : (N x).type ≠ none) (hz : (N x).nlink = 0) :
    Names n (update N x (N x).freed) pend := by
  have hcount := h.count x hx
  have hlx : links n N x = 0 ∧ pend x = 0 := by omega
  have hnone : (update N x (N x).freed x).type = none := by
    rw [update_self]
    rfl
  have hother : ∀ {i}, i ≠ x → update N x (N x).freed i = N i := fun hi =>
    update_of_ne hi ..
  have hdir : ∀ {d}, (update N x (N x).freed d).type = some .dir → d ≠ x := by grind
  have hrx : ROOTINO ≠ x := by
    rintro rfl
    exact h.root_live hz
  -- it names nothing: its entries are free and its `..` is not counted
  have hlinks : ∀ y ≠ 0, links n (update N x (N x).freed) y = links n N y := fun y hy => by
    refine links_congr fun j => ?_
    by_cases hj : j = x
    · rw [hj, Node.linksTo_of_not_dir (by rw [hnone]; exact nofun)]
      by_cases hd : (N x).type = some .dir
      · have hno : namesOf (N x).rest y = 0 := namesOf_eq_zero.mpr fun e he => by
          rw [h.clean x hd hz e he]
          exact hy.symm
        rw [Node.linksTo_dir hd, hno, if_neg fun hl => hl.1 hz]
      · rw [Node.linksTo_of_not_dir hd]
    · rw [hother hj]
  refine ⟨h.fits, fun i hi => ?_, fun i hi => ?_, fun d hd => ?_, fun d hd => ?_, fun y hy => ?_,
    fun y hy => ?_, fun y hy hn => ?_, fun d hd e he hc => ?_, fun d c hd hc => ?_,
    fun c hc hl hr hp => ?_, ?_, ?_, ?_, ⟨h.root_named.1, fun d hd e he => ?_⟩, ?_⟩
  · by_cases hix : i = x
    · exact absurd (hix ▸ hnone) hi
    · exact h.range i (hother hix ▸ hi)
  · by_cases hix : i = x
    · rw [hix, update_self]
      rfl
    · rw [hother hix] at hi ⊢
      exact h.plain i hi
  · have hdx := hdir hd
    rw [hother hdx] at hd ⊢
    exact h.dots d hd
  · have hdx := hdir hd
    rw [hother hdx] at hd ⊢
    exact h.clean d hd
  · have hyx : y ≠ x := by
      rintro rfl
      exact hy hnone
    rw [hother hyx] at hy ⊢
    rw [hlinks y (ne_of_gt (h.range y hy).1)]
    exact h.count y hy
  · have hyx : y ≠ x := by
      rintro rfl
      exact hy hnone
    rw [hother hyx] at hy ⊢
    exact h.bound y hy
  · rw [hlinks y (ne_of_gt hy)]
    by_cases hyx : y = x
    · rw [hyx]
      exact hlx
    · rw [hother hyx] at hn
      exact h.free y hy hn
  · have hcx := hdir hc
    have hdx := hdir hd
    rw [hother hdx] at hd he
    rw [hother hcx] at hc ⊢
    exact h.parent d hd e he hc
  · have hdx := hdir hd
    rw [hother (hdir hc)] at hc
    rw [hother hdx] at hd ⊢
    exact h.once d c hd hc
  · have hcx := hdir hc
    rw [hother hcx] at hc hl ⊢
    obtain ⟨hup, e, he, hec⟩ := h.named c hc hl hr hp
    have hupx : (N c).dotdot ≠ x := fun heq => by
      have := h.links_pos_of_up hc hl
      rw [heq] at this
      omega
    grind
  · rw [hother hrx]
    exact h.root
  · rw [hother hrx]
    exact h.root_up
  · rw [hother hrx]
    exact h.root_live
  · have hdx := hdir hd
    rw [hother hdx] at hd he
    exact h.root_named.2 d hd e he
  · obtain ⟨depth, hdepth⟩ := h.ranked
    refine ⟨depth, fun c hc hl hr => ?_⟩
    grind

/-! ### Removing an entry -/

/-- The only link to an empty directory is its entry. -/
theorem Names.links_empty_dir (h : Names n N fun _ => 0) {e : Dirent}
    (hdp : (N dp).type = some .dir) (he : e ∈ (N dp).rest) (hd : (N e.inum).type = some .dir)
    (hempty : ∀ e' ∈ (N e.inum).rest, e'.inum = 0) : links n N e.inum = 1 := by
  have hterm : ∀ d ∈ Finset.range n, (N d).linksTo e.inum = if dp = d then 1 else 0 := by
    intro d _
    by_cases hdd : (N d).type = some .dir
    · -- nothing below an empty directory, so no `..` names it
      have hup : ¬((N d).nlink ≠ 0 ∧ (N d).dotdot = e.inum) := by
        rintro ⟨hl, heq⟩
        by_cases hroot : d = ROOTINO
        · rw [hroot, h.root_up] at heq
          exact h.root_named.2 dp hdp e he heq.symm
        · obtain ⟨-, e', he', hinum⟩ := h.named d hdd hl hroot rfl
          rw [heq] at he'
          exact h.ne_zero_of_dir hdd (hinum ▸ hempty e' he')
      rw [Node.linksTo_dir hdd, if_neg hup, add_zero]
      by_cases hdp' : dp = d
      · have hone := h.once dp e.inum hdp hd
        have hpos := namesOf_pos.mpr ⟨e, he, rfl⟩
        rw [if_pos hdp', ← hdp']
        omega
      · rw [if_neg hdp', namesOf_eq_zero]
        intro e' he' heq
        have h1 := h.parent dp hdp e he hd
        have h2 := h.parent d hdd e' he' (heq ▸ hd)
        rw [heq, h1] at h2
        exact hdp' h2
    · have hdp' : dp ≠ d := by
        rintro rfl
        exact hdd hdp
      rw [Node.linksTo_of_not_dir hdd, if_neg hdp']
  unfold links
  rw [Finset.sum_congr rfl hterm, Finset.sum_ite_eq, if_pos (Finset.mem_range.mpr (h.lt_of_dir hdp))]

/-- A directory with an empty subdirectory has a link besides the `..`
of that. -/
theorem Names.two_le_nlink (h : Names n N fun _ => 0) {e : Dirent}
    (hdp : (N dp).type = some .dir) (he : e ∈ (N dp).rest) (hd : (N e.inum).type = some .dir)
    (hempty : ∀ e' ∈ (N e.inum).rest, e'.inum = 0) : 2 ≤ (N dp).nlink := by
  have hup := h.parent dp hdp e he hd
  have hne0 := h.ne_zero_of_dir hd
  have hlive : (N dp).nlink ≠ 0 := h.live_of_entry hdp he hne0
  have hl1 : (N e.inum).nlink ≠ 0 := by
    have := h.nlink_pos_of_links hne0 (h.links_pos_of_entry hdp he)
    omega
  have hchild : 1 ≤ (N e.inum).linksTo dp := by
    rw [Node.linksTo_dir hd, if_pos ⟨hl1, hup⟩]
    omega
  -- the other link: its own entry, or the `..` of the root
  obtain ⟨j, hj, hje, hlink⟩ : ∃ j < n, j ≠ e.inum ∧ 1 ≤ (N j).linksTo dp := by
    by_cases hroot : dp = ROOTINO
    · refine ⟨dp, h.lt_of_dir hdp, fun heq => ?_, ?_⟩
      · grind
      · rw [Node.linksTo_dir hdp, if_pos ⟨hlive, by rw [hroot, h.root_up]⟩]
        omega
    · obtain ⟨hupdir, e', he', hinum⟩ := h.named dp hdp hlive hroot rfl
      refine ⟨_, h.lt_of_dir hupdir, fun heq => ?_, ?_⟩
      · rw [heq] at he'
        exact h.ne_zero_of_dir hdp (hinum ▸ hempty e' he')
      · have := namesOf_pos.mpr ⟨e', he', hinum⟩
        rw [Node.linksTo_dir hupdir]
        omega
  have hsum := add_le_sum (f := fun d => (N d).linksTo dp) (Finset.mem_range.mpr hj)
    (Finset.mem_range.mpr (h.lt_of_dir hd)) (Ne.symm hje)
  have hcount := h.count dp (by rw [hdp]; exact nofun)
  have hle : 2 ≤ links n N dp := by
    unfold links
    omega
  omega

/-- Named entry `k` of `dp`, which named `ip`, was cleared and the
counts taken back. -/
structure Removed (N N' : Nat → Node) (dp k ip : Nat) : Prop where
  type : ∀ i, (N' i).type = (N i).type
  dotdot : ∀ i, (N' i).dotdot = (N i).dotdot
  rest : (N' dp).rest = (N dp).rest.set k ⟨0, []⟩
  dots : (N' dp).Dots dp
  other : ∀ {i}, i ≠ dp → (N' i).ents = (N i).ents
  nlink : ∀ i, (N' i).nlink = (N i).nlink - (if i = ip then 1 else 0)
    - if i = dp ∧ (N ip).type = some .dir then 1 else 0

section Removed

variable {N' : Nat → Node} {k ip : Nat} {e : Dirent}

theorem Removed.rest_of_ne (ht : Removed N N' dp k ip) (hi : i ≠ dp) :
    (N' i).rest = (N i).rest := by
  rw [Node.rest, ht.other hi, Node.rest]

theorem Removed.mem (ht : Removed N N' dp k ip) (he : e ∈ (N' d).rest) :
    e.inum = 0 ∨ e ∈ (N d).rest := by
  by_cases hd : d = dp
  · rw [hd, ht.rest] at he
    grind
  · rw [ht.rest_of_ne hd] at he
    exact .inr he

/-- The other entries stay. -/
theorem Removed.mem_of_ne (ht : Removed N N' dp k ip) (hk : (N dp).rest[k]? = some e)
    (hip : e.inum = ip) {e' : Dirent} (he : e' ∈ (N d).rest) (hne : e'.inum ≠ ip) :
    e' ∈ (N' d).rest := by
  by_cases hd : d = dp
  · grind [ht.rest, getElem_of_mem, mem_iff_getElem]
  · rwa [ht.rest_of_ne hd]

theorem Removed.namesOf (ht : Removed N N' dp k ip) (hk : (N dp).rest[k]? = some e)
    (hip : e.inum = ip) (hy : y ≠ 0) :
    Xv6.namesOf (N' dp).rest y + (if ip = y then 1 else 0) = Xv6.namesOf (N dp).rest y := by
  obtain ⟨hlt, hget⟩ := List.getElem?_eq_some_iff.mp hk
  have hset := namesOf_set (e := ⟨0, []⟩) (y := y) hlt
  rw [hget, hip, if_neg (show (⟨0, []⟩ : Dirent).inum ≠ y from hy.symm), add_zero] at hset
  rw [ht.rest]
  exact hset

/-- Removing the entry of a file. -/
theorem Removed.links_file (ht : Removed N N' dp k ip) (h : Names n N fun _ => 0)
    (hdp : (N dp).type = some .dir) (hk : (N dp).rest[k]? = some e) (hip : e.inum = ip)
    (hfile : (N ip).type ≠ some .dir) (hy : y ≠ 0) :
    Xv6.links n N' y + (if ip = y then 1 else 0) = Xv6.links n N y := by
  have hnl : ∀ {j}, (N j).type = some .dir → (N' j).nlink = (N j).nlink := fun {j} hj => by
    have hjp : j ≠ ip := by
      rintro rfl
      exact hfile hj
    rw [ht.nlink, if_neg hjp, if_neg fun hc => hfile hc.2, Int.sub_zero, Int.sub_zero]
  have hoff := links_off N N' y (h.lt_of_dir hdp) fun j hj => by
    unfold Node.linksTo
    rw [ht.type, ht.rest_of_ne hj, ht.dotdot]
    grind
  rw [Node.linksTo_dir ((ht.type dp).trans hdp), Node.linksTo_dir hdp, hnl hdp, ht.dotdot] at hoff
  have := ht.namesOf hk hip hy
  omega

/-- Removing the entry of an empty directory also drops its `..`. -/
theorem Removed.links_dir (ht : Removed N N' dp k ip) (h : Names n N fun _ => 0)
    (hdp : (N dp).type = some .dir) (hk : (N dp).rest[k]? = some e) (hip : e.inum = ip)
    (hdir : (N ip).type = some .dir) (hempty : ∀ e' ∈ (N ip).rest, e'.inum = 0) (hne : ip ≠ dp)
    (hy : y ≠ 0) :
    Xv6.links n N' y + (if ip = y then 1 else 0) + (if dp = y then 1 else 0)
      = Xv6.links n N y := by
  subst hip
  have he := mem_of_getElem? hk
  have hnl := h.count e.inum (by rw [hdir]; exact nofun)
  rw [h.links_empty_dir hdp he hdir hempty] at hnl
  have htwo := h.two_le_nlink hdp he hdir hempty
  have hup := h.parent dp hdp e he hdir
  have hnl' : (N' e.inum).nlink = 0 := by
    rw [ht.nlink, if_pos rfl, if_neg fun hc => hne hc.1, hnl]
    rfl
  have hdpnl : (N' dp).nlink ≠ 0 := by
    rw [ht.nlink, if_neg hne.symm, if_pos ⟨rfl, hdir⟩]
    omega
  -- first `dp`, then the removed directory
  have hoff₁ := links_off N (update N dp (N' dp)) y
    (h.lt_of_dir hdp) fun j hj => by rw [update_of_ne hj]
  have hoff₂ := links_off (update N dp (N' dp)) N' y
    (h.lt_of_dir hdir) fun j hj => by
      by_cases hjd : j = dp
      · rw [hjd, update_self]
      · rw [update_of_ne hjd]
        have hnlj : (N' j).nlink = (N j).nlink := by
          rw [ht.nlink, if_neg hj, if_neg fun hc => hjd hc.1, Int.sub_zero, Int.sub_zero]
        unfold Node.linksTo
        rw [ht.type, ht.rest_of_ne hjd, ht.dotdot, hnlj]
  rw [update_of_ne hne] at hoff₂
  rw [update_self] at hoff₁
  have hrest0 : Xv6.namesOf (N e.inum).rest y = 0 := namesOf_eq_zero.mpr fun e' he' => by
    rw [hempty e' he']
    exact hy.symm
  rw [Node.linksTo_dir ((ht.type _).trans hdir), Node.linksTo_dir hdir, ht.rest_of_ne hne,
    ht.dotdot, hrest0, hup] at hoff₂
  rw [Node.linksTo_dir ((ht.type _).trans hdp), Node.linksTo_dir hdp, ht.dotdot] at hoff₁
  have hnames := ht.namesOf hk rfl hy
  have hlive : (N dp).nlink ≠ 0 := by omega
  have hlive' : (N e.inum).nlink ≠ 0 := by omega
  simp only [hdpnl, hlive, ne_eq, not_false_eq_true, true_and] at hoff₁
  simp only [hnl', hlive', ne_eq, not_true_eq_false, not_false_eq_true, true_and, false_and,
    if_false] at hoff₂
  omega

/-- The entry of a directory without entries, or of a file, is not its
own directory's. -/
theorem Names.entry_ne (h0 : e.inum ≠ 0) (hdp : (N dp).type = some .dir) (he : e ∈ (N dp).rest)
    (hempty : (N e.inum).type = some .dir → ∀ e' ∈ (N e.inum).rest, e'.inum = 0) :
    e.inum ≠ dp := by
  intro heq
  exact h0 (hempty (heq ▸ hdp) e (heq ▸ he))

/-- The parent keeps a link. -/
theorem Removed.parent_live (ht : Removed N N' dp k ip) (h : Names n N fun _ => 0)
    (hdp : (N dp).type = some .dir) (he : e ∈ (N dp).rest) (hip : e.inum = ip) (h0 : ip ≠ 0)
    (hempty : (N ip).type = some .dir → ∀ e' ∈ (N ip).rest, e'.inum = 0) :
    (N' dp).nlink ≠ 0 := by
  subst hip
  have hlive := h.live_of_entry hdp he h0
  rw [ht.nlink, if_neg (Names.entry_ne h0 hdp he hempty).symm]
  by_cases hd : (N e.inum).type = some .dir
  · have := h.two_le_nlink hdp he hd (hempty hd)
    omega
  · rw [if_neg fun hc => hd hc.2]
    omega

/-- **Unlinking keeps the counts exact.** -/
theorem Names.remove (ht : Removed N N' dp k ip) (h : Names n N fun _ => 0)
    (hdp : (N dp).type = some .dir) (hk : (N dp).rest[k]? = some e) (hip : e.inum = ip)
    (h0 : ip ≠ 0) (hempty : (N ip).type = some .dir → ∀ e' ∈ (N ip).rest, e'.inum = 0) :
    Names n N' fun _ => 0 := by
  subst hip
  have he := mem_of_getElem? hk
  have hpos := h.links_pos_of_entry hdp he
  have halloc := h.alloc_of_links h0 hpos
  have hne := Names.entry_ne h0 hdp he hempty
  have hlive := h.live_of_entry hdp he h0
  -- the count of an empty directory
  have hdirnl : (N e.inum).type = some .dir → (N e.inum).nlink = 1 := by
    intro hd
    rw [h.count _ halloc, h.links_empty_dir hdp he hd (hempty hd)]
    rfl
  have hlinks : ∀ y ≠ 0, links n N' y + (if e.inum = y then 1 else 0)
      + (if dp = y ∧ (N e.inum).type = some .dir then 1 else 0) = links n N y := fun y hy => by
    by_cases hd : (N e.inum).type = some .dir
    · simp only [hd, and_true]
      exact ht.links_dir h hdp hk rfl hd (hempty hd) hne hy
    · simp only [hd, and_false, if_false, add_zero]
      exact ht.links_file h hdp hk rfl hd hy
  have hdpnl := ht.parent_live h hdp he rfl h0 hempty
  have hdead : (N e.inum).type = some .dir → (N' e.inum).nlink = 0 := fun hd => by
    rw [ht.nlink, if_pos rfl, if_neg fun hc => hne hc.1, hdirnl hd]
    rfl
  -- a directory with links had links before
  have hback : ∀ {c}, (N c).type = some .dir → (N' c).nlink ≠ 0 → (N c).nlink ≠ 0 ∧ c ≠ e.inum := by
    intro c hc hl
    have hce : c ≠ e.inum := by
      rintro rfl
      exact hl (hdead hc)
    refine ⟨?_, hce⟩
    by_cases hcd : c = dp
    · rw [hcd]
      exact hlive
    · rw [ht.nlink, if_neg hce, if_neg fun h => hcd h.1, Int.sub_zero, Int.sub_zero] at hl
      exact hl
  have hzero : ∀ {i : Nat}, i = 0 → (N i).type ≠ some .dir := by
    rintro i rfl hd
    exact h.ne_zero_of_dir hd rfl
  refine ⟨h.fits, fun i hi => h.range i (ht.type i ▸ hi), fun i hi => ?_, fun d hd => ?_,
    fun d hd hz e' he' => ?_, fun y hy => ?_, fun y hy => ?_, fun y hy hnone => ?_,
    fun d hd e' he' hc => ?_, fun d c hd hc => ?_, fun c hc hl hr hp => ?_, ?_, ?_, ?_,
    ⟨rfl, fun d hd e' he' => ?_⟩, ?_⟩
  · rw [ht.type] at hi
    have hid : i ≠ dp := by
      rintro rfl
      exact hi hdp
    rw [ht.other hid]
    exact h.plain i hi
  · rw [ht.type] at hd
    by_cases hdd : d = dp
    · exact hdd ▸ ht.dots
    · obtain ⟨h1, h2, h3⟩ := h.dots d hd
      refine ⟨?_, ?_, ?_⟩
      · rw [ht.other hdd, ht.dotdot, ht.rest_of_ne hdd]
        exact h1
      · rw [ht.dotdot]
        exact h2
      · rw [ht.rest_of_ne hdd]
        exact h3
  · rw [ht.type] at hd
    rcases ht.mem he' with h0 | he'
    · exact h0
    · by_cases hde : d = e.inum
      · grind
      · by_cases hdd : d = dp
        · exact absurd (hdd ▸ hz) hdpnl
        · rw [ht.nlink, if_neg hde, if_neg fun h => hdd h.1, Int.sub_zero, Int.sub_zero] at hz
          exact h.clean d hd hz e' he'
  · rw [ht.type] at hy
    have hl := hlinks y (ne_of_gt (h.range y hy).1)
    rw [ht.nlink, h.count y hy]
    grind
  · rw [ht.type] at hy
    have := h.bound y hy
    rw [ht.nlink]
    split <;> split <;> omega
  · rw [ht.type] at hnone
    have hl := hlinks y (ne_of_gt hy)
    have := (h.free y hy hnone).1
    exact ⟨by omega, rfl⟩
  · rw [ht.type] at hd hc
    rw [ht.dotdot]
    rcases ht.mem he' with h0 | he'
    · exact absurd hc (hzero h0)
    · exact h.parent d hd e' he' hc
  · rw [ht.type] at hd hc
    have honce := h.once d c hd hc
    by_cases hdd : d = dp
    · have := ht.namesOf hk rfl (h.ne_zero_of_dir hc)
      rw [hdd] at honce ⊢
      omega
    · rwa [ht.rest_of_ne hdd]
  · rw [ht.type] at hc
    obtain ⟨hl', hce⟩ := hback hc hl
    obtain ⟨hup, e', he', hec⟩ := h.named c hc hl' hr rfl
    rw [ht.dotdot, ht.type]
    exact ⟨hup, e', ht.mem_of_ne hk rfl he' (hec ▸ hce), hec⟩
  · rw [ht.type]
    exact h.root
  · rw [ht.dotdot]
    exact h.root_up
  · have hre : ROOTINO ≠ e.inum := (h.root_named.2 dp hdp e he).symm
    by_cases hrd : ROOTINO = dp
    · exact hrd ▸ hdpnl
    · rw [ht.nlink, if_neg hre, if_neg fun h => hrd h.1, Int.sub_zero, Int.sub_zero]
      exact h.root_live
  · rw [ht.type] at hd
    rcases ht.mem he' with h0 | he'
    · rw [h0]
      exact nofun
    · exact h.root_named.2 d hd e' he'
  · obtain ⟨depth, hdepth⟩ := h.ranked
    refine ⟨depth, fun c hc hl hr => ?_⟩
    simp_all [ht.type, ht.dotdot]

end Removed

end Transitions

/-! ## `..` -/

section Up

variable {n : Nat} {N N' : Nat → Node} {pend : Nat → Nat} {dp x k ip : Nat}

theorem Up.same_dirs (h : Up N) (hdir : ∀ {d}, (N d).type = some .dir → N' d = N d)
    (hdir' : ∀ {d}, (N' d).type = some .dir → (N d).type = some .dir) : Up N' := fun d hd => by
  obtain ⟨ht, hl⟩ := h d (hdir' hd)
  rw [hdir (hdir' hd), hdir ht]
  exact ⟨ht, hl⟩

theorem Up.entered {e : Dirent} (h : Up N) (ht : Entered N N' dp e) : Up N' := fun d hd => by
  rw [ht.dotdot, ht.type, ht.nlink]
  exact h d (ht.type d ▸ hd)

theorem Up.made_dir (h : Up N) (ht : MadeDir N N' dp x) (hN : Names n N pend)
    (hx : (N x).type = none) (hd : (N dp).type = some .dir) (hdp : (N dp).nlink ≠ 0) : Up N' := by
  have hdir : ∀ {d}, (N d).type = some .dir → d ≠ x := by grind
  have hkeep : ∀ {t}, (N t).type = some .dir → (N t).nlink ≠ 0 →
      (N' t).type = some .dir ∧ (N' t).nlink ≠ 0 := fun {t} htd hl =>
    ⟨(ht.keeps (hdir htd)).1.trans htd, (ht.live_iff hN (hdir htd) hdp hd).mpr hl⟩
  intro d hdd
  by_cases hdx : d = x
  · rw [hdx, ht.dotdot_self]
    exact hkeep hd hdp
  · rw [ht.dotdot hdx]
    obtain ⟨h1, h2⟩ := h d ((ht.keeps hdx).1 ▸ hdd)
    exact hkeep h1 h2

theorem Up.freed (h : Up N) (hz : (N x).nlink = 0) : Up (update N x (N x).freed) := by
  intro d hd
  have hdx : d ≠ x := by
    rintro rfl
    rw [update_self] at hd
    cases hd
  rw [update_of_ne hdx] at hd ⊢
  obtain ⟨h1, h2⟩ := h d hd
  grind

theorem Up.removed (h : Up N) (ht : Removed N N' dp k ip) (hdp : (N' dp).nlink ≠ 0)
    (hip : (N ip).type = some .dir → ∀ d, (N d).type = some .dir → (N d).dotdot ≠ ip) : Up N' := by
  intro d hd
  rw [ht.type] at hd
  obtain ⟨h1, h2⟩ := h d hd
  rw [ht.dotdot, ht.type]
  refine ⟨h1, ?_⟩
  by_cases hup : (N d).dotdot = dp
  · rw [hup]
    exact hdp
  · have hne : (N d).dotdot ≠ ip := fun heq => hip (heq ▸ h1) d hd heq
    rw [ht.nlink, if_neg hne, if_neg fun hc => hup hc.1, Int.sub_zero, Int.sub_zero]
    exact h2

end Up

end Xv6
