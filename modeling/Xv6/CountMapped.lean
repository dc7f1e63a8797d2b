import Xv6.Sbrk

/-!
# `countmapped`

The recursive count of the valid leaf entries of a page table. Its counter
is a global variable that no one resets, so that a call returns the sum of
its own count and those of all calls before it (`countmapped_eq`,
`run_counts`). The count itself is right: it is the number of page numbers
with a valid entry (`leaves_eq_sum`), which for a process is its size in
pages and two more.
-/

namespace Xv6.Vm

open Transfer Radix StepSystem List

/-- Where the kernel faults: a null pointer, a recursion that does not end
with the third level, a lock that is taken twice. -/
inductive Fault where
  | nullPointer | depth | acquire
  deriving DecidableEq

/-- One entry of the loop of `countmapped`; `sub` is the recursive call. -/
def countEntry (sub : Nat → Nat → Except Fault Nat) (pte count : Nat) : Except Fault Nat :=
  if pteHas pte PTE_V = true ∧ pteHas pte (PTE_R ||| PTE_W ||| PTE_X) = false then
    sub (PTE2PA pte) count
  else if pteHas pte PTE_V = true then .ok ((count + 1) % 2 ^ 32)
  else .ok count

/-- `countmapped` on a table of at most `depth` levels: the global counter
before and after. -/
def countLevels (mem : Nat → Page) : Nat → Nat → Nat → Except Fault Nat
  | 0, _, _ => .error .depth
  | depth + 1, pagetable, count =>
      if pagetable = 0 then .error .nullPointer
      else (finRange NPTE).foldlM
        (fun count i => countEntry (countLevels mem depth) (entry mem pagetable i) count) count

/-- The result of `countmapped` is the counter after the call. -/
def countmapped (mem : Nat → Page) (pagetable count : Nat) : Except Fault Nat :=
  countLevels mem 3 pagetable count

/-! ## The number of leaves -/

/-- The valid entries at the bottom of a table of the given height. -/
def leaves (mem : Nat → Page) : Nat → Nat → Nat
  | 0, pg => ((finRange NPTE).map fun i =>
      if pteHas (entry mem pg i) PTE_V = true then 1 else 0).sum
  | level + 1, pg => ((finRange NPTE).map fun i =>
      if pteHas (entry mem pg i) PTE_V = true then leaves mem level (PTE2PA (entry mem pg i))
      else 0).sum

/-- No page of the table is at address 0. -/
def NoNull (mem : Nat → Page) : Nat → Nat → Prop
  | 0, pg => pg ≠ 0
  | level + 1, pg => pg ≠ 0
      ∧ ∀ i, pteHas (entry mem pg i) PTE_V = true → NoNull mem level (PTE2PA (entry mem pg i))

/-- A well-formed page table of three levels. -/
structure PageTable (mem : Nat → Page) (pagetable : Nat) : Prop where
  levels : WellFormed mem 2 pagetable
  pages : NoNull mem 2 pagetable

section Count

variable {mem : Nat → Page}

theorem NoNull.ne {n pg : Nat} (h : NoNull mem n pg) : pg ≠ 0 := by
  cases n with
  | zero => exact h
  | succ n => exact h.1

/-- A loop each of whose rounds adds to the counter. -/
theorem foldlM_adds {ι : Type} {f : Nat → ι → Except Fault Nat} {c : ι → Nat} {is : List ι}
    (hf : ∀ i ∈ is, ∀ count < 2 ^ 32, f count i = .ok ((count + c i) % 2 ^ 32)) :
    ∀ {count : Nat}, count < 2 ^ 32 →
      is.foldlM f count = .ok ((count + (is.map c).sum) % 2 ^ 32) := by
  induction is with
  | nil =>
    intro count hc
    exact congrArg Except.ok (Nat.mod_eq_of_lt hc).symm
  | cons i is ih =>
    intro count hc
    rw [foldlM_cons, hf i mem_cons_self count hc]
    refine (ih (fun j hj => hf j (mem_cons_of_mem _ hj)) (Nat.mod_lt _ (by decide))).trans ?_
    grind

/-- The counter after a call on a table of height `n`. -/
theorem countLevels_eq {n : Nat} : ∀ {pg count : Nat}, WellFormed mem n pg → NoNull mem n pg →
    count < 2 ^ 32 →
    countLevels mem (n + 1) pg count = .ok ((count + leaves mem n pg) % 2 ^ 32) := by
  induction n with
  | zero =>
    intro pg count hwf hnn hc
    rw [countLevels, if_neg hnn.ne, leaves]
    refine foldlM_adds (fun i _ count hc => ?_) hc
    cases hv : pteHas (entry mem pg i) PTE_V with
    | false =>
      simp only [countEntry, hv, Bool.false_eq_true, false_and, if_false]
      grind
    | true => simp [countEntry, hv, hwf i hv]
  | succ n ih =>
    intro pg count hwf hnn hc
    rw [countLevels, if_neg hnn.ne, leaves]
    refine foldlM_adds (fun i _ count hc => ?_) hc
    cases hv : pteHas (entry mem pg i) PTE_V with
    | false =>
      simp only [countEntry, hv, Bool.false_eq_true, false_and, if_false]
      grind
    | true =>
      obtain ⟨hnone, hkid⟩ := hwf i hv
      simp [countEntry, hv, hnone, ih hkid (hnn.2 i hv) hc]

/-- **A call adds its own count to that of all calls before it.** -/
theorem countmapped_eq {pg count : Nat} (h : PageTable mem pg) (hc : count < 2 ^ 32) :
    countmapped mem pg count = .ok ((count + leaves mem 2 pg) % 2 ^ 32) :=
  countLevels_eq h.levels h.pages hc

end Count

/-! ## Leaves and page numbers -/

section Keys

variable {mem : Nat → Page}

theorem lookup_congr {level pg a b : Nat} (h : a % NPTE ^ (level + 1) = b % NPTE ^ (level + 1)) :
    lookup mem level pg a = lookup mem level pg b := by
  induction level generalizing pg with
  | zero =>
    have hd : digit NPTE 0 a = digit NPTE 0 b := by
      refine Fin.ext ?_
      simpa [digit_val] using h
    rw [lookup, lookup, hd]
  | succ level ih =>
    obtain ⟨hd, hm⟩ := mod_pow_succ_eq.mp h
    simp only [lookup, hd, ih hm]

theorem sum_range_mul (f : Nat → Nat) (m b : Nat) :
    ∑ key ∈ Finset.range (m * b), f key
      = ∑ i ∈ Finset.range m, ∑ j ∈ Finset.range b, f (i * b + j) := by
  induction m with
  | zero => simp
  | succ m ih => rw [Nat.succ_mul, Finset.sum_range_add, ih, Finset.sum_range_succ]

/-- A sum over keys, by their top digit. -/
theorem sum_keys (g : Nat → Nat) (n : Nat) : ∑ key ∈ Finset.range (NPTE ^ (n + 1)), g key
    = ((finRange NPTE).map fun i =>
      ∑ j ∈ Finset.range (NPTE ^ n), g (compose NPTE n i.val j)).sum := by
  have hcompose : ∀ i, ∑ j ∈ Finset.range (NPTE ^ n), g (compose NPTE n i j)
      = ∑ j ∈ Finset.range (NPTE ^ n), g (i * NPTE ^ n + j) := fun i =>
    Finset.sum_congr rfl fun j hj => by rw [compose, Nat.mod_eq_of_lt (Finset.mem_range.mp hj)]
  simp only [hcompose]
  rw [pow_succ, Nat.mul_comm, sum_range_mul, ← ofFn_eq_map, sum_ofFn,
    Fin.sum_univ_eq_sum_range fun i => ∑ j ∈ Finset.range (NPTE ^ n), g (i * NPTE ^ n + j)]

/-- The leaves of a table are the page numbers with a valid entry. -/
theorem leaves_eq_sum {n : Nat} : ∀ {pg : Nat}, leaves mem n pg
    = ∑ key ∈ Finset.range (NPTE ^ (n + 1)),
      if pteHas (lookup mem n pg key) PTE_V = true then 1 else 0 := by
  induction n with
  | zero =>
    intro pg
    rw [sum_keys, leaves]
    simp [lookup, digit_compose]
  | succ n ih =>
    intro pg
    rw [sum_keys, leaves]
    refine congrArg sum (map_congr_left fun i _ => ?_)
    simp only [lookup, digit_compose]
    split
    · rw [ih]
      refine Finset.sum_congr rfl fun j _ => ?_
      rw [lookup_congr (compose_mod (n + 1) i.val j)]
    · simp [pteHas_zero]

theorem leaves_le (pg : Nat) : leaves mem 2 pg ≤ NPTE ^ 3 := by
  rw [leaves_eq_sum]
  calc _ ≤ ∑ _key ∈ Finset.range (NPTE ^ 3), 1 :=
        Finset.sum_le_sum fun key _ => by split <;> omega
    _ = NPTE ^ 3 := by simp

end Keys

/-! ## The tables of processes -/

section Process

variable {M : Machine} {mem : Nat → Page} {n pg tf : Nat}

theorem noNull_of {t : PTree n} (hrep : Rep mem t) (hok : ∀ x ∈ t.nodes, M.IsPage x)
    (hname : t.name = some pg) : NoNull mem n pg := by
  have hpos : ∀ x, M.IsPage x → x ≠ 0 := fun x hx hzero => by
    have hbase := M.kernbase_lt
    have hkend := M.etext_le
    have hx := hx.2.1
    omega
  induction t generalizing pg with
  | nil => cases hname
  | leaf a val =>
    cases hname
    exact hpos a (hok a (Trie.mem_leaf_self a val))
  | node a kid ih =>
    cases hname
    refine ⟨hpos a (hok a (Trie.mem_node_self a kid)), fun i hv => ?_⟩
    have hkid : ∀ x ∈ (kid i).nodes, M.IsPage x := fun x hx => hok x (Trie.mem_node_of_kid hx)
    have hent : entry mem a i = link (kid i).name := (hrep i).1
    rw [hent] at hv ⊢
    rcases link_cases hkid with ⟨-, hv'⟩ | ⟨pg', hpg', -, hpa, -⟩
    · rw [hv'] at hv
      cases hv
    · rw [hpa]
      exact ih i (hrep i).2 hkid hpg'

theorem Space.pageTable {t : Table} (hs : Space M t tf n) (hrep : Rep mem t)
    (hok : ∀ x ∈ t.nodes, M.IsPage x) (hname : t.name = some pg) : PageTable mem pg where
  levels := wellFormed_of hrep hok hname fun _ hv => hs.perm_of_valid hv
  pages := noNull_of hrep hok hname

/-- The user pages, the trapframe and the trampoline. -/
theorem Space.leaves_eq {t : Table} (hs : Space M t tf n) (hrep : Rep mem t)
    (hok : ∀ x ∈ t.nodes, M.IsPage x) (hname : t.name = some pg) : leaves mem 2 pg = n + 2 := by
  have hn : n ≤ 2 ^ 26 - 2 := hs.user.le
  have hkeys : (Finset.range (NPTE ^ 3)).filter (fun key => pteHas (lookup mem 2 pg key) PTE_V = true)
      = Finset.range n ∪ {USERTOP, USERTOP + 1} := by
    ext key
    simp only [Finset.mem_filter, Finset.mem_range, Finset.mem_union, Finset.mem_insert,
      Finset.mem_singleton]
    have hbound : key < n ∨ key = USERTOP ∨ key = USERTOP + 1 → key < NPTE ^ 3 := by grind
    constructor
    · rintro ⟨hkey, hv⟩
      rw [lookup_eq hrep hok hname] at hv
      exact (hs.valid_iff hkey).mp hv
    · intro h
      refine ⟨hbound h, ?_⟩
      rw [lookup_eq hrep hok hname]
      exact (hs.valid_iff (hbound h)).mpr h
  have hdisj : Disjoint (Finset.range n) {USERTOP, USERTOP + 1} := by grind [Finset.disjoint_left]
  rw [leaves_eq_sum, ← Finset.card_filter, hkeys, Finset.card_union_of_disjoint hdisj,
    Finset.card_range, Finset.card_pair (Nat.ne_of_lt (Nat.lt_succ_self _))]

end Process

/-! ## Runs of calls -/

/-- A call: the memory it finds, and the table. -/
structure CountCall where
  mem : Nat → Page
  pagetable : Nat

/-- The number of leaves that a call is about. -/
def CountCall.leaves (c : CountCall) : Nat := Vm.leaves c.mem 2 c.pagetable

/-- The table is well formed. -/
def CountCall.Ok (c : CountCall) : Prop := PageTable c.mem c.pagetable

/-- The global counter over the calls. -/
def countStep (count : Nat) (c : CountCall) : Option Nat :=
  (countmapped c.mem c.pagetable count).toOption

theorem countStep_eq {c : CountCall} {count : Nat} (h : c.Ok) (hc : count < 2 ^ 32) :
    countStep count c = some ((count + c.leaves) % 2 ^ 32) := by
  rw [countStep, countmapped_eq h hc]
  rfl

/-- After any calls the counter is the sum of all their counts. -/
theorem run_counts {calls : List CountCall} : ∀ {count : Nat}, (∀ c ∈ calls, c.Ok) → count < 2 ^ 32 →
    run countStep count calls = some ((count + (calls.map CountCall.leaves).sum) % 2 ^ 32) := by
  induction calls with
  | nil =>
    simp_all [Nat.mod_eq_of_lt]
  | cons c calls ih =>
    intro count h hc
    refine run_cons.mpr ⟨_, countStep_eq (h c mem_cons_self) hc, ?_⟩
    simp_all [Nat.mod_add_mod, map_cons, sum_cons, Nat.add_assoc, mem_cons_of_mem, Nat.mod_lt]

/-- In every state that can be reached, the table of a process is well
formed and has a leaf for each page of its size and two more. -/
theorem reachable_leaves {np : Nat} {M : Machine} {S S' : KSys np} {mem : Nat → Page}
    {acts : List (KAct np × List Bool)} (hboot : kboot M np mem = .ok S)
    (hrun : run (kStep M) S acts = some S') {p : Fin np} {pt : Nat}
    (hpt : (S'.proc p).pagetable = some pt) :
    PageTable S'.kmem.cell pt ∧ leaves S'.kmem.cell 2 pt = npg (S'.proc p).sz + 2 := by
  obtain ⟨g, hi, -⟩ := run_sound hboot hrun
  rcases hi.slot p with hv | ⟨-, pt', tf, hl⟩
  · rw [hv.pagetable] at hpt
    cases hpt
  · obtain rfl : pt = pt' := Option.some.inj (hpt.symm.trans hl.pagetable)
    have hok : ∀ x ∈ (g.tree p).nodes, M.IsPage x := fun x hx =>
      (hl.owned (hi.slot_owned p)).left.ok_owned hx
    exact ⟨hl.space.pageTable hl.rep hok hl.name, hl.space.leaves_eq hl.rep hok hl.name⟩

/-- The first process, with one page. -/
theorem exists_three_leaves : ∃ c : CountCall, c.Ok ∧ c.leaves = 3 := by
  obtain ⟨S, S', hboot, hrun, hP⟩ := bootRun_spec [(.userinit [19, 5, 0, 0], [])]
    (fun S => decide ((S.proc 0).pagetable ≠ none ∧ (S.proc 0).sz = 4096)) (by decide +kernel)
  obtain ⟨hne, hsz⟩ := of_decide_eq_true hP
  obtain ⟨pt, hpt⟩ := Option.ne_none_iff_exists'.mp hne
  obtain ⟨htable, hleaves⟩ := reachable_leaves hboot hrun hpt
  refine ⟨⟨S'.kmem.cell, pt⟩, htable, hleaves.trans ?_⟩
  rw [hsz]
  rfl

/-- A call of `countmapped` returns the number of leaves exactly when the
counts of the calls before it add up to 0 in 32 bits. So two calls on one
table differ unless it has no leaf, and while growing a process by `k`
pages adds `k` leaves, its count does not go up by `k`. -/
theorem countmapped_counts_iff (calls : List CountCall) (c : CountCall) (h : ∀ d ∈ c :: calls, d.Ok) :
    (∃ total, run countStep 0 calls = some total
      ∧ (countmapped c.mem c.pagetable total = .ok c.leaves
        ↔ (calls.map CountCall.leaves).sum % 2 ^ 32 = 0)
      ∧ ∃ r r', countmapped c.mem c.pagetable total = .ok r
        ∧ countmapped c.mem c.pagetable r = .ok r' ∧ (r' = r ↔ c.leaves = 0))
    ∧ ∀ {np : Nat} {M : Machine} {S S₁ S₂ : KSys np} {mem : Nat → Page}
      {acts₁ acts₂ : List (KAct np × List Bool)}, kboot M np mem = .ok S →
      run (kStep M) S acts₁ = some S₁ → run (kStep M) S acts₂ = some S₂ →
      ∀ {p : Fin np} {pt₁ pt₂ k total : Nat}, (S₁.proc p).pagetable = some pt₁ →
        (S₂.proc p).pagetable = some pt₂ → npg (S₂.proc p).sz = npg (S₁.proc p).sz + k →
        total < 2 ^ 32 →
        leaves S₂.kmem.cell 2 pt₂ = leaves S₁.kmem.cell 2 pt₁ + k
          ∧ ∃ r r', countmapped S₁.kmem.cell pt₁ total = .ok r
            ∧ countmapped S₂.kmem.cell pt₂ r = .ok r' ∧ r' ≠ (r + k) % 2 ^ 32 := by
  constructor
  · have hok := h c mem_cons_self
    have hlt : ∀ n, n % 2 ^ 32 < 2 ^ 32 := fun n => Nat.mod_lt n (by decide)
    have hle : c.leaves ≤ 2 ^ 27 := leaves_le c.pagetable
    have hcall : ∀ count < 2 ^ 32, countmapped c.mem c.pagetable count
        = .ok ((count + c.leaves) % 2 ^ 32) := fun count hc => countmapped_eq hok hc
    refine ⟨_, run_counts (fun d hd => h d (mem_cons_of_mem _ hd)) (by decide), ?_, _, _,
      hcall _ (hlt _), hcall _ (hlt _), ?_⟩
    · grind
    · omega
  · intro np M S S₁ S₂ mem acts₁ acts₂ hboot hrun₁ hrun₂ p pt₁ pt₂ k total hpt₁ hpt₂ hk htotal
    obtain ⟨htable₁, hleaves₁⟩ := reachable_leaves hboot hrun₁ hpt₁
    obtain ⟨htable₂, hleaves₂⟩ := reachable_leaves hboot hrun₂ hpt₂
    have hle : leaves S₂.kmem.cell 2 pt₂ ≤ 2 ^ 27 := leaves_le pt₂
    refine ⟨by omega, _, _, countmapped_eq htable₁ htotal,
      countmapped_eq htable₂ (Nat.mod_lt _ (by decide)), ?_⟩
    omega

/-- The first call since boot is right. -/
theorem countmapped_first : ∃ c : CountCall, c.Ok ∧ countmapped c.mem c.pagetable 0 = .ok 3 := by
  obtain ⟨c, hok, hleaves⟩ := exists_three_leaves
  obtain ⟨total, htotal, hiff, -⟩ := (countmapped_counts_iff [] c (by simpa using hok)).1
  cases htotal
  grind

/-- The second one on the same table is not. -/
theorem countmapped_twice : ∃ c : CountCall, c.Ok ∧ c.leaves = 3 ∧ run countStep 0 [c] = some 3
    ∧ countmapped c.mem c.pagetable 3 = .ok 6 := by
  obtain ⟨c, hok, hleaves⟩ := exists_three_leaves
  refine ⟨c, hok, hleaves, ?_, ?_⟩
  · rw [run_counts (by simpa using hok) (by decide)]
    simp [hleaves]
  · rw [countmapped_eq hok (by decide), show leaves c.mem 2 c.pagetable = 3 from hleaves]
    rfl

end Xv6.Vm
