import Xv6.Interrupts

/-!
# The interrupt state belongs to the thread

The nesting depth of the thread on a CPU is the CPU's `noff`, and while
it is positive `intena` is the bit at that thread's outermost
`push_off`. Both are facts about one CPU and the thread on it (`Good`);
each action of a thread keeps them, and `sched` carries them from one
CPU to another. The scheduler thread gets an `intena` that is not its
own when a process switches back to it, and keeps the depth only.
-/

namespace Xv6.Intr

open List

/-- What a trap can interrupt. -/
def Ctl.Plain : Ctl → Prop
  | .run | .pushing .. => True
  | _ => False

/-- On a CPU, and not about to restore `intena`. -/
def Ctl.Active : Ctl → Prop
  | .run | .pushing .. | .spinning _ => True
  | _ => False

theorem Ctl.Plain.active {k : Ctl} (h : k.Plain) : k.Active := by
  cases k <;> first | exact h | exact h.elim

/-- The thread on a CPU. -/
structure OnCpu (k : Cpu) (x : Thread) : Prop where
  noff : k.noff = x.nest
  off : 0 < k.noff → k.intr = false
  stack : ∀ y ∈ x.stack, y.Plain

/-- It has the bit of its outermost `push_off` in `intena`, if the value
there is its own. -/
structure Good (k : Cpu) (own : Bool) (x : Thread) : Prop extends OnCpu k x where
  active : x.ctl.Active
  intena : own = true → 0 < x.nest → k.intena = x.entry

/-- A thread in `sched`. -/
structure InSched (t : Nat) (x : Thread) : Prop where
  held : x.held = [.proc t]
  bare : x.bare = 0
  stack : ∀ y ∈ x.stack, y.Plain

theorem nest_of_plain {x : Thread} (h : x.ctl.Plain) : x.nest = x.held.length + x.bare := by
  unfold Thread.nest
  split
  · rename_i lk hlk
    rw [hlk] at h
    exact h.elim
  · rfl

/-- A thread with nothing to undo is not in `acquire`. -/
theorem plain_of_nest {x : Thread} (h : x.ctl.Active) (h0 : x.nest = 0) : x.ctl.Plain := by
  unfold Thread.nest at h0
  cases hctl : x.ctl with
  | spinning lk =>
    rw [hctl] at h0
    cases h0
  | _ =>
    rw [hctl] at h
    exact h

theorem InSched.nest {t : Nat} {x : Thread} (h : InSched t x) (hctl : ∀ lk, x.ctl ≠ .spinning lk) :
    x.nest = 1 := by
  unfold Thread.nest
  rw [h.held, h.bare]
  split
  · grind
  · rfl

section Thread

variable {k : Cpu} {own : Bool} {x : Thread} {t : Nat}

theorem Good.read (h : Good k own x) (hrun : x.ctl = .run) (lk : Option Lock) :
    Good k own { x with ctl := .pushing k.intr lk } := by
  have hnest : x.nest = x.held.length + x.bare := nest_of_plain (by rw [hrun]; trivial)
  exact ⟨⟨h.noff.trans hnest, h.off, h.stack⟩, trivial, fun ho hpos => h.intena ho (hnest ▸ hpos)⟩

/-- The rest of `push_off`; `x'` has one more to undo. -/
theorem Good.push (h : Good k own x) {old : Bool} {x' : Thread} (hctl : x'.ctl.Active)
    (hnest : x'.nest = x.nest + 1) (hstack : x'.stack = x.stack)
    (hentry : x'.entry = if x.nest = 0 then old else x.entry) :
    Good { k with
      intr := false
      intena := if k.noff = 0 then old else k.intena
      noff := k.noff + 1 } own x' := by
  refine ⟨⟨?_, fun _ => rfl, by rw [hstack]; exact h.stack⟩, hctl, fun ho _ => ?_⟩
  · rw [hnest, ← h.noff]
  · rw [hentry, h.noff]
    split
    · rfl
    · exact h.intena ho (by omega)

/-- `pop_off` with something to undo does not panic, and the outermost
one restores the bit. -/
theorem Good.pop (h : Good k own x) {x' : Thread} (hctl : x'.ctl.Active)
    (hnest : x.nest = x'.nest + 1) (hstack : x'.stack = x.stack) (hentry : x'.entry = x.entry) :
    k.intr = false ∧ ¬k.noff < 1 ∧
      Good { k with noff := k.noff - 1, intr := decide (k.noff - 1 = 0) && k.intena } own x' ∧
      (own = true → x'.nest = 0 → (decide (k.noff - 1 = 0) && k.intena) = x'.entry) := by
  have hnoff := h.noff
  refine ⟨h.off (by omega), by omega, ⟨⟨?_, fun hpos => ?_, by rw [hstack]; exact h.stack⟩, hctl,
    fun ho _ => ?_⟩, fun ho h0 => ?_⟩
  · show k.noff - 1 = _
    omega
  · grind
  · rw [hentry]
    exact h.intena ho (by omega)
  · rw [hentry, ← h.intena ho (by omega), decide_eq_true (by omega), Bool.true_and]

/-- With interrupts on there is nothing to undo. -/
theorem OnCpu.nest_eq_zero (h : OnCpu k x) (hintr : k.intr = true) : x.nest = 0 := by
  by_contra hne
  have := h.off (by rw [h.noff]; omega)
  rw [hintr] at this
  cases this

theorem Good.trap (h : Good k own x) (hintr : k.intr = true) :
    Good { k with intr := false } own { x with ctl := .run, stack := x.ctl :: x.stack } := by
  have h0 := h.nest_eq_zero hintr
  have hplain := plain_of_nest h.active h0
  have hnest : ({ x with ctl := .run, stack := x.ctl :: x.stack } : Thread).nest = 0 :=
    (nest_of_plain hplain).symm.trans h0
  refine ⟨⟨?_, fun _ => rfl, fun y hy => ?_⟩, trivial, fun _ hpos => by omega⟩
  · rw [hnest]
    exact h.noff.trans h0
  · rcases mem_cons.mp hy with rfl | hy
    · exact hplain
    · exact h.stack y hy

theorem Good.trapRet (h : Good k own x) (hrun : x.ctl = .run) (h0 : x.nest = 0) {ctl : Ctl}
    {stack : List Ctl} (hstack : x.stack = ctl :: stack) :
    Good { k with intr := true } own { x with ctl := ctl, stack := stack } := by
  have hplain : ctl.Plain := h.stack ctl (by rw [hstack]; exact mem_cons_self)
  have hnest : ({ x with ctl := ctl, stack := stack } : Thread).nest = 0 := by
    rw [nest_of_plain hplain, ← nest_of_plain (x := x) (by rw [hrun]; trivial), h0]
  refine ⟨⟨?_, fun hpos => ?_, fun y hy => h.stack y ?_⟩, hplain.active, fun _ hpos => by omega⟩
  · rw [hnest]
    exact h.noff.trans h0
  · have : 0 < k.noff := hpos
    have := h.noff
    omega
  · grind

theorem Good.setIntr (h : Good k own x) (h0 : x.nest = 0) (on : Bool) :
    Good { k with intr := on } own x := by
  refine ⟨⟨h.noff, fun hpos => ?_, h.stack⟩, h.active, h.intena⟩
  have : 0 < k.noff := hpos
  have := h.noff
  omega

/-- The lock is taken: `x'` has it among the held ones. -/
theorem Good.take (h : Good k own x) {lk : Lock} (hctl : x.ctl = .spinning lk) :
    Good k own { x with ctl := .run, held := lk :: x.held } := by
  have hnest : ({ x with ctl := .run, held := lk :: x.held } : Thread).nest = x.nest := by
    rw [Thread.nest, Thread.nest, hctl]
    grind
  exact ⟨⟨h.noff.trans hnest.symm, h.off, h.stack⟩, trivial,
    fun ho hpos => h.intena ho (hnest ▸ hpos)⟩

end Thread

/-! ## The system -/

/-- A process on a CPU: in its own code, or just switched to. -/
def Runs (k : Cpu) (t : Nat) (x : Thread) : Prop :=
  Good k true x ∨ x.ctl = .resumed x.entry ∧ InSched t x ∧ OnCpu k x

/-- A scheduler thread while process `t` has its CPU. -/
structure Waits (t : Nat) (x : Thread) : Prop extends InSched t x where
  ctl : x.ctl = .run

/-- One CPU: a process with its scheduler waiting, or the scheduler. -/
def CpuOk (s : Sys) (c : Nat) : Prop :=
  match (s.cpu c).proc with
  | none => Good (s.cpu c) (!s.back c) (s.sch c)
  | some t => Runs (s.cpu c) t (s.proc t) ∧ Waits t (s.sch c) ∧ s.back c = false

/-- A process that has no CPU. -/
structure Off (t : Nat) (x : Thread) : Prop extends InSched t x where
  ctl : x.ctl = .fresh ∨ x.ctl = .parked x.entry

/-- The panics that do not happen. -/
def Panic.Excluded : Panic → Prop
  | .popOffInterruptible | .popOff | .schedInterruptible => True
  | _ => False

structure Inv (s : Sys) : Prop where
  solo : ∀ {c c' t}, (s.cpu c).proc = some t → (s.cpu c').proc = some t → c = c'
  cpu : ∀ c, CpuOk s c
  off : ∀ t, (∀ c, (s.cpu c).proc ≠ some t) → Off t (s.proc t)
  returns : ∀ e ∈ s.returns, e.2 = e.1
  panic : ∀ p ∈ s.panic, ¬p.Excluded

section Update

variable {s : Sys} {c : Nat} {k : Cpu} {x : Thread}

/-- Whether the `intena` of a CPU is that of the thread on it. -/
def Sys.own (s : Sys) (c : Nat) : Bool :=
  match (s.cpu c).proc with
  | none => !s.back c
  | some _ => true

/-- The thread on a CPU, if it is in its own code. -/
theorem Inv.good (h : Inv s) (hctl : ∀ i, (s.cur c).ctl ≠ .resumed i) :
    Good (s.cpu c) (s.own c) (s.cur c) := by
  have hok := h.cpu c
  unfold CpuOk at hok
  unfold Sys.own Sys.cur
  unfold Sys.cur at hctl
  cases hp : (s.cpu c).proc with
  | none =>
    rw [hp] at hok
    exact hok
  | some t =>
    rw [hp] at hok hctl
    rcases hok.1 with hgood | ⟨hres, -⟩
    · exact hgood
    · exact absurd hres (hctl _)

/-- The thread on a CPU with interrupts on is in its own code. -/
theorem Inv.good_of_intr (h : Inv s) (hintr : (s.cpu c).intr = true) :
    Good (s.cpu c) (s.own c) (s.cur c) := by
  have hok := h.cpu c
  unfold CpuOk at hok
  unfold Sys.own Sys.cur
  cases hp : (s.cpu c).proc with
  | none =>
    rw [hp] at hok
    exact hok
  | some t =>
    rw [hp] at hok
    rcases hok.1 with hgood | ⟨hres, hin, hon⟩
    · exact hgood
    · have h0 := hon.nest_eq_zero hintr
      rw [hin.nest (by rw [hres]; nofun)] at h0
      cases h0

theorem Inv.scheduler (h : Inv s) (hp : (s.cpu c).proc = none) :
    Good (s.cpu c) (!s.back c) (s.sch c) := by
  have hok := h.cpu c
  unfold CpuOk at hok
  rwa [hp] at hok

theorem Inv.running {t : Nat} (h : Inv s) (hp : (s.cpu c).proc = some t) :
    Runs (s.cpu c) t (s.proc t) ∧ Waits t (s.sch c) ∧ s.back c = false := by
  have hok := h.cpu c
  unfold CpuOk at hok
  rwa [hp] at hok

/-- A step of a scheduler thread on its CPU. -/
theorem Inv.local_sch (h : Inv s) (hp : (s.cpu c).proc = none) (hk : k.proc = none) {b : Bool}
    (hgood : Good k (!b) x) :
    Inv { s with
      cpu := Function.update s.cpu c k
      sch := Function.update s.sch c x
      back := Function.update s.back c b } := by
  have hproc : ∀ c', (Function.update s.cpu c k c').proc = (s.cpu c').proc := fun c' => by grind
  refine ⟨fun h1 h2 => h.solo ((hproc _).symm.trans h1) ((hproc _).symm.trans h2), fun c' => ?_,
    fun t ht => h.off t fun c' hc' => ht c' ((hproc c').trans hc'), h.returns, h.panic⟩
  by_cases hc : c' = c
  · subst hc
    unfold CpuOk
    grind
  · have hok := h.cpu c'
    simp_all [CpuOk]

/-- A step of a process on its CPU. -/
theorem Inv.local_proc {t : Nat} (h : Inv s) (hp : (s.cpu c).proc = some t)
    (hk : k.proc = some t) (hruns : Runs k t x) {returns : List (Bool × Bool)}
    (hret : ∀ e ∈ returns, e.2 = e.1) :
    Inv { s with
      cpu := Function.update s.cpu c k
      proc := Function.update s.proc t x
      returns := returns } := by
  have hproc : ∀ c', (Function.update s.cpu c k c').proc = (s.cpu c').proc := fun c' => by grind
  refine ⟨fun h1 h2 => h.solo ((hproc _).symm.trans h1) ((hproc _).symm.trans h2), fun c' => ?_,
    fun t' ht' => ?_, hret, h.panic⟩
  · by_cases hc : c' = c
    · subst hc
      unfold CpuOk
      dsimp only
      rw [Function.update_self, hk]
      dsimp only
      rw [Function.update_self]
      exact ⟨hruns, (h.running hp).2⟩
    · have hok := h.cpu c'
      unfold CpuOk at hok ⊢
      dsimp only
      rw [Function.update_of_ne hc]
      cases hp' : (s.cpu c').proc with
      | none => rwa [hp'] at hok
      | some t' =>
        rw [hp'] at hok
        have hne : t' ≠ t := fun heq => hc (h.solo hp' (heq ▸ hp))
        grind
  · have hne : t' ≠ t := fun heq => ht' c (by rw [heq]; exact (hproc c).trans hp)
    show Off t' (Function.update s.proc t x t')
    rw [Function.update_of_ne hne]
    exact h.off t' fun c' hc' => ht' c' ((hproc c').trans hc')

/-- A step of the thread on `c` that changes that thread and the fields
of the CPU. -/
theorem Inv.local (h : Inv s) (hgood : Good k (s.own c) x) (hk : k.proc = (s.cpu c).proc) :
    Inv ((s.setCpu c k).setCur c x) := by
  have hself : (s.setCpu c k).cpu c = k := Function.update_self ..
  unfold Sys.setCur
  rw [hself, hk]
  unfold Sys.own at hgood
  cases hp : (s.cpu c).proc with
  | none =>
    rw [hp] at hgood
    have := h.local_sch (b := s.back c) hp (hk.trans hp) hgood
    rwa [Function.update_eq_self] at this
  | some t =>
    rw [hp] at hgood
    exact h.local_proc hp (hk.trans hp) (.inl hgood) h.returns

/-- The same when only the thread changes, or only the CPU. -/
theorem Inv.thread (h : Inv s) (hgood : Good (s.cpu c) (s.own c) x) : Inv (s.setCur c x) := by
  have hsame : s.setCpu c (s.cpu c) = s := by
    rw [Sys.setCpu, Function.update_eq_self]
  have := h.local hgood rfl
  rwa [hsame] at this

theorem Inv.bits (h : Inv s) (hgood : Good k (s.own c) (s.cur c)) (hk : k.proc = (s.cpu c).proc) :
    Inv (s.setCpu c k) := by
  have hself : (s.setCpu c k).cpu c = k := Function.update_self ..
  have hsame : (s.setCpu c k).setCur c (s.cur c) = s.setCpu c k := by
    unfold Sys.setCur Sys.cur
    rw [hself, hk]
    cases (s.cpu c).proc with
    | none => exact congrArg (fun f => { s.setCpu c k with sch := f }) (Function.update_eq_self ..)
    | some t => exact congrArg (fun f => { s.setCpu c k with proc := f }) (Function.update_eq_self ..)
  have := h.local hgood hk
  rwa [hsame] at this

/-- The lock table is not part of the invariant. -/
theorem Inv.setLock (h : Inv s) (lock : Lock → Option Nat) : Inv { s with lock := lock } :=
  ⟨h.solo, h.cpu, h.off, h.returns, h.panic⟩

theorem Inv.die (h : Inv s) {p : Panic} (hp : ¬p.Excluded) : Inv (s.die p) :=
  ⟨h.solo, h.cpu, h.off, h.returns, fun q hq => by
    obtain rfl := Option.mem_some.mp hq
    exact hp⟩

/-- `pop_off` by a thread with something to undo. -/
theorem Inv.popOff (h : Inv s) (hgood : Good (s.cpu c) (s.own c) (s.cur c)) (hctl : x.ctl.Active)
    (hnest : (s.cur c).nest = x.nest + 1) (hstack : x.stack = (s.cur c).stack)
    (hentry : x.entry = (s.cur c).entry) : Inv (s.popOff c x) := by
  obtain ⟨hintr, hnoff, hpop, hback⟩ := hgood.pop hctl hnest hstack hentry
  have hself : ∀ k', (s.setCpu c k').cpu c = k' := fun k' => Function.update_self ..
  unfold Sys.popOff
  rw [if_neg (by rw [hintr]; decide), if_neg hnoff]
  by_cases h0 : x.nest = 0
  · rw [if_pos h0]
    unfold Sys.setCur
    rw [hself]
    cases hp : (s.cpu c).proc with
    | none =>
      -- the scheduler has given back the lock it was switched to with
      rw [hp] at hpop
      exact h.local_sch hp rfl ⟨hpop.toOnCpu, hctl, fun _ hpos => by omega⟩
    | some t =>
      unfold Sys.own at hpop hback
      rw [hp] at hpop hback
      refine h.local_proc hp rfl (.inl hpop) fun e he => ?_
      rcases mem_append.mp he with he | he
      · exact h.returns e he
      · grind
  · rw [if_neg h0]
    exact h.local hpop rfl

end Update

/-! ## Steps and runs -/

section Step

variable {s s' : Sys}

/-- Switching to a process. -/
theorem Inv.dispatch (h : Inv s) {c t : Nat} (hp : (s.cpu c).proc = none)
    (hsch : Waits t (s.sch c)) (hback : s.back c = false) {x : Thread}
    (hoff : ∀ c', (s.cpu c').proc ≠ some t) (hruns : Runs { s.cpu c with proc := some t } t x) :
    Inv { s with
      cpu := Function.update s.cpu c { s.cpu c with proc := some t }
      proc := Function.update s.proc t x } := by
  have hproc : ∀ c', c' ≠ c → (Function.update s.cpu c { s.cpu c with proc := some t } c') = s.cpu c' :=
    fun c' hc => Function.update_of_ne hc ..
  have hself : Function.update s.cpu c { s.cpu c with proc := some t } c
      = { s.cpu c with proc := some t } := Function.update_self ..
  refine ⟨fun {c₁ c₂ t'} h1 h2 => ?_, fun c' => ?_, fun t' ht' => ?_, h.returns, h.panic⟩
  · dsimp only at h1 h2
    by_cases hc₁ : c₁ = c
    · grind
    · rw [hproc c₁ hc₁] at h1
      by_cases hc₂ : c₂ = c
      · grind
      · rw [hproc c₂ hc₂] at h2
        exact h.solo h1 h2
  · by_cases hc : c' = c
    · subst hc
      unfold CpuOk
      grind
    · have hok := h.cpu c'
      unfold CpuOk at hok ⊢
      dsimp only
      rw [hproc c' hc]
      cases hp' : (s.cpu c').proc with
      | none => rwa [hp'] at hok
      | some t' =>
        grind
  · have hne : t' ≠ t := by grind
    show Off t' (Function.update s.proc t x t')
    rw [Function.update_of_ne hne]
    refine h.off t' fun c' hc' => ht' c' ?_
    grind

/-- `sched` with exactly the own lock held: interrupts are off, and the
thread takes its `intena` along. -/
theorem Inv.sched (h : Inv s) {c t : Nat} (hp : (s.cpu c).proc = some t)
    (hrun : (s.proc t).ctl = .run) (hheld : (s.proc t).held = [.proc t])
    (hbare : (s.proc t).bare = 0) :
    (s.cpu c).intr = false ∧
      Inv { s with
        proc := Function.update s.proc t { s.proc t with ctl := .parked (s.cpu c).intena }
        cpu := Function.update s.cpu c { s.cpu c with proc := none }
        back := Function.update s.back c true } := by
  obtain ⟨hruns, hwaits, -⟩ := h.running hp
  have hgood : Good (s.cpu c) true (s.proc t) := by
    rcases hruns with hgood | ⟨hres, -⟩
    · exact hgood
    · rw [hrun] at hres
      cases hres
  have hnest : (s.proc t).nest = 1 :=
    InSched.nest ⟨hheld, hbare, hgood.stack⟩ (by rw [hrun]; nofun)
  have hnoff : (s.cpu c).noff = 1 := hgood.noff.trans hnest
  have hother : ∀ c', c' ≠ c →
      Function.update s.cpu c { s.cpu c with proc := none } c' = s.cpu c' := fun c' hc =>
    Function.update_of_ne hc ..
  have hself : Function.update s.cpu c { s.cpu c with proc := none } c
      = { s.cpu c with proc := none } := Function.update_self ..
  have hproc : ∀ {c' t'}, (Function.update s.cpu c { s.cpu c with proc := none } c').proc = some t' →
      c' ≠ c ∧ (s.cpu c').proc = some t' := fun {c' t'} h1 => by
    by_cases hc : c' = c
    · rw [hc, hself] at h1
      cases h1
    · grind
  refine ⟨hgood.off (by omega), fun h1 h2 => h.solo (hproc h1).2 (hproc h2).2, fun c' => ?_,
    fun t' ht' => ?_, h.returns, h.panic⟩
  · unfold CpuOk
    dsimp only
    by_cases hc : c' = c
    · -- the scheduler finds the depth it left
      subst hc
      rw [hself, Function.update_self]
      refine ⟨⟨hnoff.trans ?_, hgood.off, hwaits.stack⟩, by rw [hwaits.ctl]; trivial, nofun⟩
      rw [hwaits.nest (by rw [hwaits.ctl]; nofun)]
    · have hok := h.cpu c'
      unfold CpuOk at hok
      rw [hother c' hc, Function.update_of_ne hc]
      cases hp' : (s.cpu c').proc with
      | none => rwa [hp'] at hok
      | some t' =>
        rw [hp'] at hok
        have hne : t' ≠ t := fun heq => hc (h.solo hp' (heq ▸ hp))
        grind
  · show Off t' (Function.update s.proc t _ t')
    by_cases ht : t' = t
    · subst ht
      rw [Function.update_self]
      exact ⟨⟨hheld, hbare, hgood.stack⟩, .inr (congrArg Ctl.parked (hgood.intena rfl (by omega)))⟩
    · rw [Function.update_of_ne ht]
      refine h.off t' fun c' hc' => ht' c' ?_
      grind

/-- The thread that was switched to puts its `intena` back. -/
theorem Inv.restore (h : Inv s) {c : Nat} {i : Bool} (hctl : (s.cur c).ctl = .resumed i) :
    Good { s.cpu c with intena := i } (s.own c) { s.cur c with ctl := .run } := by
  unfold Sys.cur Sys.own at *
  cases hp : (s.cpu c).proc with
  | none =>
    rw [hp] at hctl
    have hact := (h.scheduler hp).active
    rw [show (s.sch c).ctl = .resumed i from hctl] at hact
    exact hact.elim
  | some t =>
    rw [hp] at hctl
    rcases (h.running hp).1 with hgood | ⟨hres, hin, hon⟩
    · have hact := hgood.active
      rw [show (s.proc t).ctl = .resumed i from hctl] at hact
      exact hact.elim
    · obtain rfl : i = (s.proc t).entry := Ctl.resumed.inj (hctl.symm.trans hres)
      have hin' : InSched t { s.proc t with ctl := .run } := ⟨hin.held, hin.bare, hin.stack⟩
      have hnest := (hin.nest (by rw [hres]; nofun)).trans (hin'.nest nofun).symm
      exact ⟨⟨hon.noff.trans hnest, hon.off, hon.stack⟩, trivial, fun _ _ => rfl⟩

/-- A process that has no CPU, from where it is. -/
theorem Inv.not_running (h : Inv s) {t : Nat} (hctl : ¬(s.proc t).ctl.Active)
    (hres : ∀ i, (s.proc t).ctl ≠ .resumed i) (c : Nat) : (s.cpu c).proc ≠ some t := by
  intro hp
  rcases (h.running hp).1 with hgood | ⟨hr, -⟩
  · exact hctl hgood.active
  · exact hres _ hr

/-- A process that has no CPU becomes another one. -/
theorem Inv.renew (h : Inv s) {t : Nat} {x : Thread} (hno : ∀ c, (s.cpu c).proc ≠ some t)
    (hx : Off t x) : Inv { s with proc := Function.update s.proc t x } := by
  refine ⟨h.solo, fun c => ?_, fun t' ht' => ?_, h.returns, h.panic⟩
  · have hok := h.cpu c
    unfold CpuOk at hok ⊢
    cases hp : (s.cpu c).proc with
    | none => rwa [hp] at hok
    | some t' =>
      grind
  · show Off t' (Function.update s.proc t x t')
    by_cases ht : t' = t
    · grind
    · rw [Function.update_of_ne ht]
      exact h.off t' ht'

theorem step_inv (h : Inv s) {a : Act} (hs : step s a = some s') : Inv s' := by
  cases a with
  | read c lk =>
    simp only [step] at hs
    split at hs
    · rename_i hg
      cases hs
      exact h.thread ((h.good fun i => by rw [hg.2]; nofun).read hg.2 lk)
    · cases hs
  | push c =>
    simp only [step] at hs
    split at hs
    · rename_i old lk hctl
      split at hs
      · have hgood := h.good (c := c) fun i => by rw [hctl]; nofun
        have hnest : (s.cur c).nest = (s.cur c).held.length + (s.cur c).bare :=
          nest_of_plain (by rw [hctl]; trivial)
        have hpush := fun x' ha hn hs he =>
          h.local (@Good.push _ _ _ hgood old x' ha hn hs he) rfl
        cases lk with
        | none =>
          cases hs
          exact hpush _ trivial (by rw [hnest]; exact (Nat.add_assoc ..).symm) rfl rfl
        | some lk =>
          have hspin : Inv ((s.pushOff c old).setCur c { s.cur c with
              ctl := .spinning lk
              entry := if (s.cur c).nest = 0 then old else (s.cur c).entry }) :=
            hpush _ trivial (by rw [hnest]; rfl) rfl rfl
          dsimp only at hs
          generalize (s.pushOff c old).setCur c _ = s₁ at hs hspin
          split at hs
          · cases hs
            exact hspin.die id
          · grind
      · cases hs
    · cases hs
  | take c =>
    simp only [step] at hs
    split at hs
    · rename_i lk hctl
      split at hs
      · cases hs
        exact (h.setLock _).thread ((h.good fun i => by rw [hctl]; nofun).take hctl)
      · cases hs
    · cases hs
  | release c lk =>
    simp only [step] at hs
    split at hs
    · rename_i hg
      split at hs
      · cases hs
        exact h.die id
      · cases hs
        have hgood := h.good (c := c) fun i => by rw [hg.2.1]; nofun
        refine (h.setLock _).popOff hgood (by dsimp only; rw [hg.2.1]; trivial) ?_ rfl rfl
        have hpos := length_pos_of_mem hg.2.2
        have hplain : (s.cur c).ctl.Plain := by rw [hg.2.1]; trivial
        show (s.cur c).nest = Thread.nest _ + 1
        rw [nest_of_plain hplain, nest_of_plain (by exact hplain), length_erase_of_mem hg.2.2]
        dsimp only
        omega
    · cases hs
  | pop c =>
    simp only [step] at hs
    split at hs
    · rename_i hg
      cases hs
      have hgood := h.good (c := c) fun i => by rw [hg.2.1]; nofun
      refine h.popOff hgood (by dsimp only; rw [hg.2.1]; trivial) ?_ rfl rfl
      have hplain : (s.cur c).ctl.Plain := by rw [hg.2.1]; trivial
      rw [nest_of_plain hplain, nest_of_plain (by exact hplain)]
      dsimp only
      omega
    · cases hs
  | setIntr c on =>
    simp only [step] at hs
    split at hs
    · rename_i hg
      cases hs
      have hgood := h.good (c := c) fun i => by rw [hg.2.1]; nofun
      exact h.bits (hgood.setIntr hg.2.2.2 on) rfl
    · cases hs
  | trap c =>
    simp only [step] at hs
    split at hs
    · rename_i hg
      cases hs
      exact h.local ((h.good_of_intr hg.2).trap hg.2) rfl
    · cases hs
  | trapRet c =>
    simp only [step] at hs
    split at hs
    · rename_i ctl stack hstack
      split at hs
      · rename_i hg
        cases hs
        have hgood := h.good (c := c) fun i => by rw [hg.2.1]; nofun
        exact h.local (hgood.trapRet hg.2.1 hg.2.2 hstack) rfl
      · cases hs
    · cases hs
  | sched c =>
    simp only [step] at hs
    split at hs
    · cases hs
    rename_i t hp
    split at hs
    · rename_i hg
      obtain ⟨hintr, hinv⟩ := h.sched hp hg.2.1 hg.2.2.1 hg.2.2.2
      split at hs
      · cases hs
        exact h.die id
      split at hs
      · cases hs
        exact h.die id
      grind
    · cases hs
  | restore c =>
    simp only [step] at hs
    split at hs
    · rename_i i hctl
      split at hs
      · cases hs
        exact h.local (h.restore hctl) rfl
      · cases hs
    · cases hs
  | dispatch c t =>
    simp only [step] at hs
    split at hs
    · rename_i hg
      obtain ⟨-, hp, hrun, hstack, hheld, hbare, hback⟩ := hg
      have hsch := h.scheduler hp
      have hwaits : Waits t (s.sch c) := ⟨⟨hheld, hbare, hsch.stack⟩, hrun⟩
      have hnest : (s.sch c).nest = 1 := hwaits.nest (by rw [hrun]; nofun)
      have hnoff : (s.cpu c).noff = 1 := hsch.noff.trans hnest
      split at hs
      · rename_i i hctl
        have hno := h.not_running (t := t) (by rw [hctl]; exact id) (by rw [hctl]; nofun)
        obtain ⟨hin, hor⟩ := h.off t hno
        obtain rfl : i = (s.proc t).entry := by grind
        cases hs
        have hin' : InSched t { s.proc t with ctl := .resumed (s.proc t).entry } :=
          ⟨hin.held, hin.bare, hin.stack⟩
        exact h.dispatch hp hwaits hback hno
          (.inr ⟨rfl, hin', hnoff.trans (hin'.nest nofun).symm, hsch.off, hin.stack⟩)
      · rename_i hctl
        have hno := h.not_running (t := t) (by rw [hctl]; exact id) (by rw [hctl]; nofun)
        obtain ⟨hin, -⟩ := h.off t hno
        cases hs
        have hin' : InSched t { s.proc t with ctl := .run, entry := (s.sch c).entry } :=
          ⟨hin.held, hin.bare, hin.stack⟩
        exact h.dispatch hp hwaits hback hno
          (.inl ⟨⟨hnoff.trans (hin'.nest nofun).symm, hsch.off, hin.stack⟩, trivial,
            fun _ _ => hsch.intena (by rw [hback]; rfl) (by omega)⟩)
      · cases hs
    · cases hs
  | renew t =>
    simp only [step] at hs
    split at hs
    · rename_i i hctl
      split at hs
      · cases hs
        exact h.renew (h.not_running (by rw [hctl]; exact id) (by rw [hctl]; nofun))
          ⟨⟨rfl, rfl, nofun⟩, .inl rfl⟩
      · cases hs
    · cases hs

/-- At boot every CPU runs its scheduler with nothing to undo, no process
has a CPU, and those that exist start in `forkret`. -/
structure Boot (s : Sys) : Prop where
  idle : ∀ c, (s.cpu c).proc = none ∧ (s.cpu c).noff = 0
  sch : ∀ c, (s.sch c).ctl = .run ∧ (s.sch c).stack = [] ∧ (s.sch c).nest = 0
  proc : ∀ t, (s.proc t).ctl = .fresh ∧ (s.proc t).stack = [] ∧ (s.proc t).held = [.proc t]
    ∧ (s.proc t).bare = 0
  panic : s.panic = none
  returns : s.returns = []

theorem Boot.inv (h : Boot s) : Inv s := by
  refine ⟨fun {c _ _} h1 _ => ?_, fun c => ?_, fun t _ => ?_, ?_, ?_⟩
  · rw [(h.idle c).1] at h1
    cases h1
  · obtain ⟨hctl, hstack, hnest⟩ := h.sch c
    unfold CpuOk
    rw [(h.idle c).1]
    refine ⟨⟨(h.idle c).2.trans hnest.symm, fun hpos => ?_, by rw [hstack]; nofun⟩,
      by rw [hctl]; trivial, fun _ hpos => ?_⟩
    · rw [(h.idle c).2] at hpos
      cases hpos
    · rw [hnest] at hpos
      cases hpos
  · obtain ⟨hctl, hstack, hheld, hbare⟩ := h.proc t
    exact ⟨⟨hheld, hbare, by rw [hstack]; nofun⟩, .inl hctl⟩
  · rw [h.returns]
    nofun
  · rw [h.panic]
    nofun

theorem Inv.noff_pos (h : Inv s) {c : Nat} (hpos : 0 < (s.cpu c).noff) : (s.cpu c).intr = false := by
  have hok := h.cpu c
  unfold CpuOk at hok
  split at hok
  · exact hok.off hpos
  · rcases hok.1 with hgood | ⟨-, -, hon⟩
    · exact hgood.off hpos
    · exact hon.off hpos

/-- **The interrupt state is restored per thread.** In every run from
boot, on any number of CPUs and with any number of processes:

* a CPU whose `noff` is positive has interrupts off;
* when the outermost `pop_off` of a process returns, interrupts are on
  exactly if they were at its outermost `push_off` (for the first one of
  a new process, at the `push_off` of the scheduler that switched to it),
  whatever CPUs it has been on;
* neither panic of `pop_off` happens, nor "sched interruptible". -/
theorem interrupts_restored {s₀ : Sys} {acts : List Act} (h₀ : Boot s₀)
    (hrun : StepSystem.run step s₀ acts = some s) :
    (∀ c, 0 < (s.cpu c).noff → (s.cpu c).intr = false) ∧ (∀ e ∈ s.returns, e.2 = e.1) ∧
      s.panic ≠ some .popOffInterruptible ∧ s.panic ≠ some .popOff ∧
      s.panic ≠ some .schedInterruptible := by
  have h := StepSystem.run_invariant (fun h hs => step_inv h hs) h₀.inv hrun
  exact ⟨fun c => h.noff_pos, h.returns, fun hp => h.panic _ hp trivial,
    fun hp => h.panic _ hp trivial, fun hp => h.panic _ hp trivial⟩

end Step

/-! ## A process that changes CPUs -/

/-- Interrupts off, nothing running. -/
def booted : Sys where
  cpu := fun _ => ⟨false, 0, false, none⟩
  proc := fun t => ⟨.fresh, [], [.proc t], 0, false⟩
  sch := fun _ => ⟨.run, [], [], 0, false⟩
  back := fun _ => false
  lock := fun _ => none
  panic := none
  returns := []

/-- `acquire(lk)` on CPU `c`. -/
def acquireActs (c : Nat) (lk : Lock) : List Act := [.read c (some lk), .push c, .take c]

/-- CPU 0 starts process 5. With interrupts on, a trap comes in the middle
of a `push_off`; the process yields, goes on on CPU 1, whose interrupts
are off, returns from the trap there and finishes the `push_off` and its
`pop_off`. -/
def migration : List Act :=
  [.setIntr 0 true] ++ acquireActs 0 (.proc 5) ++ [.dispatch 0 5, .release 0 (.proc 5)] ++
  [.read 0 none, .trap 0] ++ acquireActs 0 (.proc 5) ++ [.sched 0, .release 0 (.proc 5)] ++
  acquireActs 1 (.proc 5) ++ [.dispatch 1 5, .restore 1, .release 1 (.proc 5), .trapRet 1] ++
  [.push 1, .pop 1]

theorem interrupts_restored_migration :
    ∃ s, StepSystem.run step booted migration = some s ∧
      s.returns = [(true, true), (false, false), (true, true)] ∧ ∀ e ∈ s.returns, e.2 = e.1 := by
  have hrun : ∃ s, StepSystem.run step booted migration = some s ∧
      s.returns = [(true, true), (false, false), (true, true)] := ⟨_, rfl, rfl⟩
  obtain ⟨s, hrun, hret⟩ := hrun
  have h₀ : Boot booted := ⟨fun _ => ⟨rfl, rfl⟩, fun _ => ⟨rfl, rfl, rfl⟩,
    fun _ => ⟨rfl, rfl, rfl, rfl⟩, rfl, rfl⟩
  exact ⟨s, hrun, hret, (interrupts_restored h₀ hrun).2.1⟩

end Xv6.Intr
