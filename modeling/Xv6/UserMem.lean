import Xv6.PageRoles
import Xv6.UserCopy
import Xv6.WriteSeq

/-!
# `copyout` and `copyin` through a page table

Physical memory is a function from addresses to bytes, and a store of
user bytes is a sequence of writes to it (`WriteSeq`). `copyout` makes
the writes of its source, each at the physical address its user address
maps to, up to the first byte that is not in a page the user may access;
`copyin` reads the same addresses.

The translation must not change under the copy: a table one of whose user
pages is a page of the table itself could be overwritten in the middle of
the loop (`UserTable.apart`).
-/

namespace Xv6.Vm

open List Option Nat

open ByteVec (Byte)
open WriteSeq Transfer Radix StepSystem

/-! ## Translation -/

/-- The table pages that `walk` reads on its way down. -/
def walkPages (k : Kmem) (va : Nat) : Nat → Nat → List Nat
  | 0, pagetable => [pagetable]
  | level + 1, pagetable =>
      let pte := k.pte ⟨pagetable, PX (level + 1) va⟩
      pagetable :: if pteHas pte PTE_V then walkPages k va level (PTE2PA pte) else []

/-- The entry of an address at the bottom level. -/
def leafPte (k : Kmem) (pagetable va : Nat) : Option Nat :=
  match walk k pagetable va false with
  | .ok (some p, _) => some (k.pte p)
  | _ => none

/-- Below `MAXVA`, valid and accessible by the user. -/
def UserAt (k : Kmem) (pagetable va : Nat) : Prop :=
  va < MAXVA ∧ ∃ pte ∈ leafPte k pagetable va, pteHas pte PTE_V = true ∧ pteHas pte PTE_U = true

instance (k : Kmem) (pagetable va : Nat) : Decidable (UserAt k pagetable va) :=
  inferInstanceAs (Decidable (_ ∧ _))

/-- The physical address of a user address. -/
def physAddr (k : Kmem) (pagetable va : Nat) : Nat := walkaddr k pagetable va + va % PGSIZE

/-- Physical memory, byte by byte. -/
def physMem (k : Kmem) (x : Nat) : Byte := (k.cell (PGROUNDDOWN x)).byte (x % PGSIZE)

/-- No user page is the page at address 0. -/
structure NonzeroPages (k : Kmem) (pagetable : Nat) : Prop where
  nonzero : ∀ {va pte}, leafPte k pagetable va = some pte → pteHas pte PTE_V = true →
    pteHas pte PTE_U = true → PTE2PA pte ≠ 0

/-- And none is a page of the table. -/
structure UserTable (k : Kmem) (pagetable : Nat) : Prop extends NonzeroPages k pagetable where
  apart : ∀ {va}, UserAt k pagetable va → ∀ va', walkaddr k pagetable va ∉ walkPages k va' 2 pagetable

section Translate

variable {k k' : Kmem} {pagetable va va' : Nat}

theorem walk_of_vpn (h : vpn va = vpn va') :
    walk k pagetable va false = walk k pagetable va' false := by
  have hpx : ∀ level, PX level va = PX level va' := fun level => by rw [px_eq, px_eq, h]
  have hloop : ∀ level pt, walkLoop va false level k pt = walkLoop va' false level k pt := by
    intro level
    induction level with
    | zero => simp [walkLoop, hpx]
    | succ level ih => simp [walkLoop, hpx, ih]
  have hmax : MAXVA ≤ va ↔ MAXVA ≤ va' := by
    replace h : va / 4096 = va' / 4096 := h
    grind
  simp [walk, hloop, hmax]

theorem leafPte_of_vpn (h : vpn va = vpn va') : leafPte k pagetable va = leafPte k pagetable va' := by
  simp [leafPte, walk_of_vpn h]

theorem walkaddr_of_vpn (h : vpn va = vpn va') :
    walkaddr k pagetable va = walkaddr k pagetable va' := by
  simp [walkaddr, walk_of_vpn h]

theorem userAt_of_vpn (h : vpn va = vpn va') : UserAt k pagetable va ↔ UserAt k pagetable va' := by
  have hmax : va < MAXVA ↔ va' < MAXVA := by
    replace h : va / 4096 = va' / 4096 := h
    show va < 2 ^ 38 ↔ va' < 2 ^ 38
    omega
  simp [UserAt, hmax, leafPte_of_vpn h]

theorem leafPte_lt {pte : Nat} (h : leafPte k pagetable va = some pte) : va < MAXVA := by
  by_contra hge
  simp [leafPte, walk, Nat.le_of_not_lt hge] at h

/-- `walkaddr` of an entry. -/
theorem walkaddr_leafPte : walkaddr k pagetable va =
    match leafPte k pagetable va with
    | some pte => if pteHas pte PTE_V = true ∧ pteHas pte PTE_U = true then PTE2PA pte else 0
    | none => 0 := by
  unfold walkaddr leafPte
  rcases walk k pagetable va false with e | ⟨_ | p, k₁⟩
  · rfl
  · rfl
  · grind

theorem walkaddr_of_not_userAt (h : ¬UserAt k pagetable va) : walkaddr k pagetable va = 0 := by
  rw [walkaddr_leafPte]
  split
  · rename_i pte hpte
    exact if_neg fun hvu => h ⟨leafPte_lt hpte, pte, hpte, hvu⟩
  · rfl

theorem walkaddr_mod (k : Kmem) (pagetable va : Nat) : walkaddr k pagetable va % 4096 = 0 := by
  have hpa : ∀ pte, PTE2PA pte % 4096 = 0 := fun pte => by
    unfold PTE2PA
    omega
  grind [walkaddr_leafPte]

theorem NonzeroPages.walkaddr_ne (ht : NonzeroPages k pagetable) (h : UserAt k pagetable va) :
    walkaddr k pagetable va ≠ 0 := by
  obtain ⟨-, pte, hpte, hv, hu⟩ := h
  rw [walkaddr_leafPte, mem_def.mp hpte]
  simpa [hv, hu] using ht.nonzero hpte hv hu

theorem NonzeroPages.walkaddr_ne_iff (ht : NonzeroPages k pagetable) :
    walkaddr k pagetable va ≠ 0 ↔ UserAt k pagetable va :=
  ⟨fun h => by_contra fun hn => h (walkaddr_of_not_userAt hn), ht.walkaddr_ne⟩

/-! ### What a copy leaves alone -/

/-- The walk reads only its table pages. -/
theorem walkLoop_frame {level : Nat} : ∀ {pt : Nat},
    (∀ x ∈ walkPages k va level pt, k'.cell x = k.cell x) →
      walkPages k' va level pt = walkPages k va level pt
        ∧ (walkLoop va false level k' pt).1 = (walkLoop va false level k pt).1
        ∧ ∀ p, (walkLoop va false level k pt).1 = some p → k'.pte p = k.pte p := by
  induction level with
  | zero =>
    intro pt h
    have hpt := h pt (by simp [walkPages])
    simp [walkPages, walkLoop, Kmem.pte, hpt]
  | succ level ih =>
    intro pt h
    have hpt := h pt (by simp [walkPages])
    have hpte : k'.pte ⟨pt, PX (level + 1) va⟩ = k.pte ⟨pt, PX (level + 1) va⟩ := by
      simp [Kmem.pte, hpt]
    cases hv : pteHas (k.pte ⟨pt, PX (level + 1) va⟩) PTE_V with
    | false => simp [walkPages, walkLoop, hpte, hv]
    | true =>
      obtain ⟨hpages, hwalk, hentry⟩ :=
        ih fun x hx => h x (by simp only [walkPages, hv, if_true, mem_cons]; exact .inr hx)
      simp_all [walkPages, walkLoop, hpte, hv, if_true]

theorem leafPte_eq : leafPte k pagetable va =
    if va < MAXVA then (walkLoop va false 2 k pagetable).1.map k.pte else none := by
  unfold leafPte
  by_cases hlt : va < MAXVA
  · rw [walk, if_neg (not_le.mpr hlt), if_pos hlt]
    rcases walkLoop va false 2 k pagetable with ⟨_ | p, k₁⟩ <;> rfl
  · simp [walk, hlt, Nat.le_of_not_lt hlt]

theorem leafPte_frame (h : ∀ x ∈ walkPages k va 2 pagetable, k'.cell x = k.cell x) :
    leafPte k' pagetable va = leafPte k pagetable va := by
  obtain ⟨-, hwalk, hentry⟩ := walkLoop_frame h
  rw [leafPte_eq, leafPte_eq, hwalk]
  refine if_congr Iff.rfl (map_congr fun p hp => hentry p hp) rfl

/-- Two memories in which every address has the same entry, read through
the same table pages. -/
structure SameTable (k k' : Kmem) (pagetable : Nat) : Prop where
  pages : ∀ va, walkPages k' va 2 pagetable = walkPages k va 2 pagetable
  entry : ∀ va, leafPte k' pagetable va = leafPte k pagetable va

theorem SameTable.of_cells (h : ∀ va, ∀ x ∈ walkPages k va 2 pagetable, k'.cell x = k.cell x) :
    SameTable k k' pagetable where
  pages va := (walkLoop_frame (h va)).1
  entry va := leafPte_frame (h va)

theorem SameTable.walkaddr (h : SameTable k k' pagetable) :
    walkaddr k' pagetable va = walkaddr k pagetable va := by
  simp [walkaddr_leafPte, h.entry]

theorem SameTable.physAddr (h : SameTable k k' pagetable) :
    physAddr k' pagetable = physAddr k pagetable := by
  funext va
  simp [Vm.physAddr, h.walkaddr]

theorem SameTable.userAt (h : SameTable k k' pagetable) :
    UserAt k' pagetable va ↔ UserAt k pagetable va := by
  simp [UserAt, h.entry]

theorem SameTable.trans {k'' : Kmem} (h : SameTable k k' pagetable)
    (h' : SameTable k' k'' pagetable) : SameTable k k'' pagetable :=
  ⟨fun va => (h'.pages va).trans (h.pages va), fun va => (h'.entry va).trans (h.entry va)⟩

theorem SameTable.userTable (h : SameTable k k' pagetable) (ht : UserTable k pagetable) :
    UserTable k' pagetable where
  nonzero hleaf := ht.nonzero (h.entry _ ▸ hleaf)
  apart hu va' := by
    rw [h.walkaddr, h.pages]
    exact ht.apart (h.userAt.mp hu) va'

/-- A user page can be written without a change to the table. -/
theorem UserTable.setPage (ht : UserTable k pagetable) (hu : UserAt k pagetable va) (page : Page) :
    SameTable k (k.setPage (walkaddr k pagetable va) page) pagetable :=
  .of_cells fun va' x hx => by
    have hne : x ≠ walkaddr k pagetable va := fun heq => ht.apart hu va' (heq ▸ hx)
    simp [Kmem.setPage, hne]

end Translate

/-! ## Copying out -/

/-- The writes of `src` at the addresses of `va`, `va + 1`, … -/
def storeAt (addr : Nat → Nat) : Nat → List Byte → List (Nat × Byte)
  | _, [] => []
  | va, b :: bs => (addr va, b) :: storeAt addr (va + 1) bs

variable {bs : List Byte} {x : Nat} {t : Table}

section Store

variable {addr : Nat → Nat}

theorem storeAt_append (va : Nat) (bs cs : List Byte) :
    storeAt addr va (bs ++ cs) = storeAt addr va bs ++ storeAt addr (va + bs.length) cs := by
  induction bs generalizing va with
  | nil => rfl
  | cons b bs ih =>
    simp only [cons_append, storeAt, ih, length_cons]
    grind

theorem storeAt_targets (va : Nat) (bs : List Byte) :
    (storeAt addr va bs).map Prod.fst = (range bs.length).map fun i => addr (va + i) := by
  induction bs generalizing va with
  | nil => rfl
  | cons b bs ih =>
    simp [storeAt, ih, range_succ_eq_map, Function.comp_def, add_assoc, add_comm 1]

theorem storeAt_mem {va i : Nat} (hi : i < bs.length) :
    (addr (va + i), bs.getD i 0) ∈ storeAt addr va bs := by
  induction bs generalizing va i with
  | nil => simp at hi
  | cons b bs ih =>
    cases i with
    | zero => simp [storeAt]
    | succ i =>
      have hrest : (addr (va + 1 + i), bs.getD i 0) ∈ storeAt addr (va + 1) bs :=
        ih (lt_of_succ_lt_succ hi)
      rw [show va + 1 + i = va + (i + 1) by omega] at hrest
      simpa [storeAt] using Or.inr hrest

/-- The byte stored at an address, when the addresses are distinct. -/
theorem applyWrites_storeAt {va i : Nat} (d : Nat → Byte) (hi : i < bs.length)
    (hinj : ∀ i < bs.length, ∀ j < bs.length, addr (va + i) = addr (va + j) → i = j) :
    applyWrites d (storeAt addr va bs) (addr (va + i)) = bs.getD i 0 := by
  refine applyWrites_mem ?_ (storeAt_mem hi)
  rw [storeAt_targets]
  exact List.Nodup.map_on (fun i hi j hj => hinj i (mem_range.mp hi) j (mem_range.mp hj))
    nodup_range

theorem applyWrites_storeAt_other {va : Nat} (d : Nat → Byte)
    (hx : ∀ i < bs.length, addr (va + i) ≠ x) : applyWrites d (storeAt addr va bs) x = d x := by
  refine applyWrites_not_target ?_
  rw [storeAt_targets]
  simpa using hx

/-- A patch of one page is the writes of its bytes. -/
theorem physMem_patch {k : Kmem} {pa off va : Nat} (hpa : pa % 4096 = 0)
    (hoff : off + bs.length ≤ 4096) (haddr : ∀ j < bs.length, addr (va + j) = pa + off + j) :
    physMem (k.setPage pa ((k.cell pa).patch off bs))
      = applyWrites (physMem k) (storeAt addr va bs) := by
  funext x
  have hdown : PGROUNDDOWN x = x / 4096 * 4096 := rfl
  have hmod : x % PGSIZE = x % 4096 := rfl
  by_cases hx : pa + off ≤ x ∧ x < pa + off + bs.length
  · have hj : x - (pa + off) < bs.length := by omega
    have hpage : PGROUNDDOWN x = pa := by omega
    have hx' : addr (va + (x - (pa + off))) = x := by
      rw [haddr _ hj]
      omega
    have hinj : ∀ i < bs.length, ∀ j < bs.length, addr (va + i) = addr (va + j) → i = j := by grind
    have hstored := applyWrites_storeAt (physMem k) hj hinj
    rw [hx'] at hstored
    rw [hstored, physMem, hpage, hmod]
    simp only [Kmem.setPage, Function.update_self]
    rw [ByteVec.byte_patch_in (by omega) (by omega) (mod_lt _ (by decide)) 0]
    congr 1
    omega
  · rw [applyWrites_storeAt_other _ fun j hj => by
      rw [haddr j hj]
      omega]
    simp only [physMem, Kmem.setPage, Function.update_apply]
    split
    · rename_i hpage
      rw [hpage, ByteVec.byte_patch_out (by omega)]
    · rfl

end Store

/-- What a copy of `src` to `dstva` has done when it stops: the first `m`
bytes are stored. -/
structure CopiedOut (k : Kmem) (pagetable dstva : Nat) (src : List Byte) (m : Nat) (k' : Kmem) :
    Prop where
  le : m ≤ src.length
  user : ∀ i < m, UserAt k pagetable (dstva + i)
  stop : m < src.length → ¬UserAt k pagetable (dstva + m)
  memory : physMem k' = applyWrites (physMem k) (storeAt (physAddr k pagetable) dstva (src.take m))
  table : SameTable k k' pagetable
  free : k'.free = k.free

section Copyout

variable {k k₁ k' : Kmem} {pagetable dstva m : Nat} {src rest : List Byte}

theorem CopiedOut.nothing (h : src ≠ [] → ¬UserAt k pagetable dstva) :
    CopiedOut k pagetable dstva src 0 k where
  le := zero_le _
  user i hi := absurd hi (not_lt_zero i)
  stop hlt := h (ne_nil_of_length_pos hlt)
  memory := by simp [storeAt]
  table := ⟨fun _ => rfl, fun _ => rfl⟩
  free := rfl

/-- A copy of a first part that is all stored, and a copy of the rest. -/
theorem CopiedOut.append (h : CopiedOut k pagetable dstva src src.length k₁)
    (h' : CopiedOut k₁ pagetable (dstva + src.length) rest m k') :
    CopiedOut k pagetable dstva (src ++ rest) (src.length + m) k' where
  le := by simpa using h'.le
  user i hi := by
    by_cases hin : i < src.length
    · exact h.user i hin
    · have := h.table.userAt.mp (h'.user (i - src.length) (by omega))
      rwa [Nat.add_assoc, Nat.add_sub_cancel' (Nat.le_of_not_lt hin)] at this
  stop hlt hu := by
    rw [length_append, add_lt_add_iff_left] at hlt
    rw [← add_assoc] at hu
    exact h'.stop hlt (h.table.userAt.mpr hu)
  memory := by
    rw [h'.memory, h.memory, h.table.physAddr, take_length, take_length_add_append,
      storeAt_append, applyWrites_append]
  table := h.table.trans h'.table
  free := h'.free.trans h.free

/-- The copy into one page. -/
theorem UserTable.copyout_page (ht : UserTable k pagetable) (hu : UserAt k pagetable dstva)
    (hlen : src.length ≤ PGSIZE - (dstva - PGROUNDDOWN dstva)) :
    CopiedOut k pagetable dstva src src.length
      (k.setPage (walkaddr k pagetable dstva)
        ((k.cell (walkaddr k pagetable dstva)).patch (dstva - PGROUNDDOWN dstva) src)) := by
  have hdown : PGROUNDDOWN dstva = dstva / 4096 * 4096 := rfl
  replace hlen : src.length ≤ 4096 - (dstva - PGROUNDDOWN dstva) := hlen
  have hvpn : ∀ i < src.length, vpn (dstva + i) = vpn dstva := by
    intro i hi
    show (dstva + i) / 4096 = dstva / 4096
    omega
  refine ⟨le_refl _, fun i hi => (userAt_of_vpn (hvpn i hi)).mpr hu,
    fun hlt => absurd hlt (lt_irrefl _), ?_, ht.setPage hu _, rfl⟩
  rw [take_length]
  refine physMem_patch (walkaddr_mod k pagetable dstva) (by omega) fun j hj => ?_
  rw [physAddr, walkaddr_of_vpn (hvpn j hj)]
  show _ + (dstva + j) % 4096 = _
  omega

theorem copyoutLoop_nil (fuel : Nat) : copyoutLoop pagetable fuel k dstva [] = (true, k) := by
  cases fuel <;> rfl

theorem copyoutLoop_cons (fuel : Nat) (hne : src ≠ []) :
    copyoutLoop pagetable (fuel + 1) k dstva src =
      let pa0 := walkaddr k pagetable dstva
      let n := PGSIZE - (dstva - PGROUNDDOWN dstva)
      if pa0 = 0 then (false, k)
      else
        copyoutLoop pagetable fuel
          (k.setPage pa0 ((k.cell pa0).patch (dstva - PGROUNDDOWN dstva) (src.take n)))
          ((PGROUNDDOWN dstva + PGSIZE) % 2 ^ 64) (src.drop n) := by
  have hvpn : vpn (PGROUNDDOWN dstva) = vpn dstva := by
    show dstva / 4096 * 4096 / 4096 = dstva / 4096
    omega
  rw [← walkaddr_of_vpn hvpn]
  cases src with
  | nil => exact absurd rfl hne
  | cons b bs => rfl

theorem UserTable.copyoutLoop_spec (fuel : Nat) : ∀ {k : Kmem} {dstva : Nat} {src : List Byte},
    UserTable k pagetable → src.length ≤ fuel →
      ∃ m, CopiedOut k pagetable dstva src m (copyoutLoop pagetable fuel k dstva src).2
        ∧ (copyoutLoop pagetable fuel k dstva src).1 = decide (m = src.length) := by
  induction fuel with
  | zero =>
    intro k dstva src ht hlen
    obtain rfl : src = [] := eq_nil_of_length_eq_zero (by omega)
    exact ⟨0, .nothing fun h => absurd rfl h, rfl⟩
  | succ fuel ih =>
    intro k dstva src ht hlen
    rcases eq_or_ne src [] with rfl | hne
    · exact ⟨0, .nothing fun h => absurd rfl h, rfl⟩
    have hpos := length_pos_iff.mpr hne
    rw [copyoutLoop_cons fuel hne]
    dsimp only
    split <;> rename_i h0
    · -- the page of the first byte is not the user's
      refine ⟨0, .nothing fun _ => mt ht.walkaddr_ne_iff.mpr (not_not.mpr h0), ?_⟩
      simp [Ne.symm (ne_of_gt hpos)]
    · have hu := ht.walkaddr_ne_iff.mp h0
      have hdown : PGROUNDDOWN dstva = dstva / 4096 * 4096 := rfl
      have hlt : dstva < 2 ^ 38 := hu.1
      generalize hn : PGSIZE - (dstva - PGROUNDDOWN dstva) = n
      replace hn : 4096 - (dstva - PGROUNDDOWN dstva) = n := hn
      have hle : (src.take n).length ≤ PGSIZE - (dstva - PGROUNDDOWN dstva) :=
        (length_take_le n src).trans (le_of_eq hn.symm)
      have hfirst := ht.copyout_page hu hle
      cases hrest : src.drop n with
      | nil =>
        have hall : src.take n = src := take_of_length_le (drop_eq_nil_iff.mp hrest)
        rw [hall] at hfirst
        rw [hall, copyoutLoop_nil]
        exact ⟨_, hfirst, (decide_eq_true rfl).symm⟩
      | cons b bs =>
        have hlen' : n < src.length := by
          by_contra hge
          simp [drop_eq_nil_of_le (Nat.le_of_not_lt hge)] at hrest
        have htake : (src.take n).length = n := by simp [le_of_lt hlen']
        have hva : (PGROUNDDOWN dstva + PGSIZE) % 2 ^ 64 = dstva + (src.take n).length := by
          grind
        rw [← hrest, hva]
        have hlen'' : (src.drop n).length ≤ fuel := by
          rw [length_drop]
          omega
        obtain ⟨m, hm, hok⟩ := ih (hfirst.table.userTable ht) hlen''
        refine ⟨(src.take n).length + m, ?_, ?_⟩
        · have := hfirst.append hm
          rwa [take_append_drop] at this
        · grind

theorem UserTable.copyout_spec (ht : UserTable k pagetable) (dstva : Nat) (src : List Byte) :
    ∃ m, CopiedOut k pagetable dstva src m (copyout k pagetable dstva src).2
      ∧ (copyout k pagetable dstva src).1 = decide (m = src.length) :=
  ht.copyoutLoop_spec src.length (le_refl _)

end Copyout

/-! ## Copying in -/

/-- The bytes that user addresses map to. -/
def userBytes (k : Kmem) (pagetable va n : Nat) : List Byte :=
  (range n).map fun i => physMem k (physAddr k pagetable (va + i))

/-- Where a scan of `n` positions stops. -/
theorem exists_stop (P : Nat → Prop) (n : Nat) :
    ∃ m ≤ n, (∀ i < m, P i) ∧ (m < n → ¬P m) := by
  induction n with
  | zero => exact ⟨0, le_refl _, fun i hi => absurd hi (not_lt_zero i), fun h => absurd h (lt_irrefl _)⟩
  | succ n ih =>
    grind

theorem copyBytes_stop {src : Source} {f : Nat → Byte} {m n : Nat} (hle : m ≤ n)
    (hin : ∀ j < m, src j = some (f j)) (hout : m < n → src m = none) :
    copyBytes src 0 n = (range m).map f := by
  have hfirst : copyBytes src 0 m = (range m).map f :=
    copyBytes_some m fun j hj => by rw [zero_add, hin j hj]
  obtain ⟨d, rfl⟩ := Nat.exists_eq_add_of_le hle
  rw [copyBytes_add, hfirst, if_pos (by simp)]
  cases d with
  | zero => simp [copyBytes]
  | succ d => simp [copyBytes, hout (by omega)]

section Copyin

variable {k : Kmem} {pagetable va : Nat}

theorem userSource_eq (hva : va < 2 ^ 64) : userSource k pagetable 0 va =
    if walkaddr k pagetable va = 0 then none else some (physMem k (physAddr k pagetable va)) := by
  have hvpn : vpn (PGROUNDDOWN va) = vpn va := by
    show va / 4096 * 4096 / 4096 = va / 4096
    omega
  have hmod := walkaddr_mod k pagetable va
  have hpage : PGROUNDDOWN (physAddr k pagetable va) = walkaddr k pagetable va := by
    show (walkaddr k pagetable va + va % 4096) / 4096 * 4096 = _
    omega
  have hoff : physAddr k pagetable va % PGSIZE = va % PGSIZE := by
    show (walkaddr k pagetable va + va % 4096) % 4096 = va % 4096
    omega
  rw [userSource, zero_add, mod_eq_of_lt hva, walkaddr_of_vpn hvpn, physMem, hpage, hoff]

theorem userSource_add (k : Kmem) (pagetable va j : Nat) :
    userSource k pagetable va j = userSource k pagetable 0 (va + j) := by
  simp [userSource]

/-- The bytes of a user range up to the first that the user may not
access. -/
theorem NonzeroPages.copyBytes_user (ht : NonzeroPages k pagetable) (hva : va < 2 ^ 64)
    {m n : Nat} (hle : m ≤ n) (hin : ∀ i < m, UserAt k pagetable (va + i))
    (hout : m < n → ¬UserAt k pagetable (va + m)) :
    copyBytes (userSource k pagetable va) 0 n = userBytes k pagetable va m := by
  have hmax : ∀ i < m, va + i < 2 ^ 38 := fun i hi => (hin i hi).1
  refine copyBytes_stop hle (fun j hj => ?_) fun hm => ?_
  · have := hmax j hj
    rw [userSource_add, userSource_eq (by omega), if_neg (ht.walkaddr_ne (hin j hj))]
  · -- the range stops before the addresses wrap
    have hlt : va + m < 2 ^ 64 := by
      rcases Nat.eq_zero_or_pos m with rfl | hpos
      · exact hva
      · have := hmax (m - 1) (by omega)
        omega
    rw [userSource_add, userSource_eq hlt, if_pos (walkaddr_of_not_userAt (hout hm))]

end Copyin

/-! ## The tables of processes -/

section Tree

variable {M : Machine} {k : Kmem} {n pt va tf : Nat}

theorem mem_nodes_of_walkPages {t : PTree n} (hrep : Rep k.cell t) (hok : ∀ x ∈ t.nodes, M.IsPage x)
    (hname : t.name = some pt) (hx : x ∈ walkPages k va n pt) : x ∈ t.nodes := by
  induction t generalizing pt with
  | nil => cases hname
  | leaf a val =>
    cases hname
    simpa [walkPages] using hx
  | @node n a kid ih =>
    cases hname
    have hkid : ∀ x ∈ (kid (digit NPTE (n + 1) (vpn va))).nodes, M.IsPage x := fun x hx =>
      hok x (Trie.mem_node_of_kid hx)
    simp only [walkPages, hrep.entry va] at hx
    rcases link_cases hkid with ⟨-, hv⟩ | ⟨pg, hpg, hv, hpa, -⟩
    · simp only [hv, Bool.false_eq_true, if_false, mem_singleton] at hx
      exact hx ▸ Trie.mem_node_self a kid
    · simp only [hv, hpa, if_true, mem_cons] at hx
      rcases hx with rfl | hx
      · exact Trie.mem_node_self x kid
      · exact Trie.mem_node_of_kid (ih _ (hrep _).2 hkid hpg hx)

theorem leafPte_tree (hrep : Rep k.cell t) (hok : ∀ x ∈ t.nodes, M.IsPage x)
    (hname : t.name = some pt) {pte : Nat} (h : leafPte k pt va = some pte) :
    pte = t.get (vpn va) := by
  have hva := leafPte_lt h
  simp only [leafPte, walk_false hrep hok hname hva] at h
  cases hb : t.bottom (vpn va) with
  | none => simp [hb] at h
  | some b =>
    simp only [hb, map_some, some.injEq] at h
    rw [← h]
    exact At.pte ⟨b, hb, rfl⟩ hrep

theorem Space.nonzeroPages (hs : Space M t tf n) (hrep : Rep k.cell t)
    (hown : Custody M.IsPage k.toStore (spacePages t n)) (hname : t.name = some pt) :
    NonzeroPages k pt where
  nonzero {va pte} hleaf hv hu hzero := by
    obtain rfl := leafPte_tree hrep (fun x hx => hown.left.ok_owned hx) hname hleaf
    have hkey := hs.lt_of_user (vpn_lt (leafPte_lt hleaf)) hu
    have hpage : M.IsPage (PTE2PA (t.get (vpn va))) :=
      hown.right.ok_owned (mem_leafPages.mpr ⟨_, zero_le _, by omega, rfl⟩)
    have hbase := M.kernbase_lt
    have hkend := M.etext_le
    have hpos := hpage.2.1
    omega

/-- The pages of an address space are apart from its table. -/
theorem Space.userTable (hs : Space M t tf n) (hrep : Rep k.cell t)
    (hown : Custody M.IsPage k.toStore (spacePages t n)) (hname : t.name = some pt) :
    UserTable k pt where
  toNonzeroPages := hs.nonzeroPages hrep hown hname
  apart {va} hu va' hmem := by
    have hok : ∀ x ∈ t.nodes, M.IsPage x := fun x hx => hown.left.ok_owned hx
    have hne := (hs.nonzeroPages hrep hown hname).walkaddr_ne hu
    exact hown.notMem_left (hs.walkaddr_mem hrep hok hname hne)
      (mem_nodes_of_walkPages hrep hok hname hmem)

end Tree

/-- In every state that can be reached, the table of each process is one
that the copies respect. -/
theorem reachable_userTable {np : Nat} {M : Machine} {S S' : KSys np} {mem : Nat → Page}
    {acts : List (KAct np × List Bool)} (hboot : kboot M np mem = .ok S)
    (hrun : run (kStep M) S acts = some S') {p : Fin np} {pt : Nat}
    (hpt : (S'.proc p).pagetable = some pt) : UserTable S'.kmem pt := by
  obtain ⟨g, hi, -⟩ := run_sound hboot hrun
  rcases hi.slot p with hv | ⟨-, pt', tf, hl⟩
  · rw [hv.pagetable] at hpt
    cases hpt
  · obtain rfl : pt = pt' := some.inj (hpt.symm.trans hl.pagetable)
    exact hl.space.userTable hl.rep (hl.owned (hi.slot_owned p)) hl.name

/-! ## The copies and the user's mapping -/

section Claim

variable {k k' : Kmem} {pagetable va m : Nat} {src : List Byte}

theorem CopiedOut.all_iff (h : CopiedOut k pagetable va src m k') :
    m = src.length ↔ ∀ i < src.length, UserAt k pagetable (va + i) := by
  refine ⟨fun hm => hm ▸ h.user, fun hall => ?_⟩
  by_contra hne
  have hlt := lt_of_le_of_ne h.le hne
  exact h.stop hlt (hall m hlt)

theorem CopiedOut.other (h : CopiedOut k pagetable va src m k')
    (hx : ∀ i < m, physAddr k pagetable (va + i) ≠ x) : physMem k' x = physMem k x := by
  rw [h.memory]
  refine applyWrites_storeAt_other _ fun i hi => hx i ?_
  rw [length_take] at hi
  omega

theorem CopiedOut.stored (h : CopiedOut k pagetable va src src.length k')
    (hinj : ∀ i < src.length, ∀ j < src.length,
      physAddr k pagetable (va + i) = physAddr k pagetable (va + j) → i = j) :
    userBytes k' pagetable va src.length = src := by
  refine ext_getElem (by simp [userBytes]) fun i h1 h2 => ?_
  simp only [userBytes, getElem_map, getElem_range]
  rw [h.memory, h.table.physAddr, take_length,
    applyWrites_storeAt _ h2 hinj, getD_eq_getElem _ _ h2]

/-- The result of `copyin`, with what it has stored. -/
theorem NonzeroPages.copyin_spec (ht : NonzeroPages k pagetable) (hva : va < 2 ^ 64) {len : Nat}
    (hle : m ≤ len) (hin : ∀ i < m, UserAt k pagetable (va + i))
    (hout : m < len → ¬UserAt k pagetable (va + m)) :
    copyinTo k pagetable len va len = (decide (m = len), userBytes k pagetable va m)
      ∧ copyin k pagetable va len = if m = len then some (userBytes k pagetable va m) else none := by
  rw [copyinTo_eq len (le_refl _) hva, copyin_eq hva, ht.copyBytes_user hva hle hin hout]
  simp [userBytes]

/-- `copyout` succeeds when the user may access the whole range, and the
source is then what the range holds; otherwise it has stored the bytes in
front of the first that the user may not access. No other byte of memory
changes. `copyin` reads the same bytes, and gives those back that a
`copyout` to distinct bytes has stored. -/
theorem copies_respect_mapping (ht : UserTable k pagetable) (hva : va < 2 ^ 64) :
    (∀ src : List Byte,
      ((copyout k pagetable va src).1 = true ↔ ∀ i < src.length, UserAt k pagetable (va + i))
        ∧ ∃ m, CopiedOut k pagetable va src m (copyout k pagetable va src).2
          ∧ ∀ x, (∀ i < m, physAddr k pagetable (va + i) ≠ x) →
            physMem (copyout k pagetable va src).2 x = physMem k x)
    ∧ (∀ len : Nat,
      ((copyinTo k pagetable len va len).1 = true ↔ ∀ i < len, UserAt k pagetable (va + i))
        ∧ ∃ m ≤ len, (∀ i < m, UserAt k pagetable (va + i))
          ∧ (m < len → ¬UserAt k pagetable (va + m))
          ∧ (copyinTo k pagetable len va len).2 = userBytes k pagetable va m
          ∧ copyin k pagetable va len
            = if m = len then some (userBytes k pagetable va m) else none)
    ∧ ∀ src : List Byte, (copyout k pagetable va src).1 = true →
      (∀ i < src.length, ∀ j < src.length,
        physAddr k pagetable (va + i) = physAddr k pagetable (va + j) → i = j) →
      copyin (copyout k pagetable va src).2 pagetable va src.length = some src := by
  refine ⟨fun src => ?_, fun len => ?_, fun src hok hinj => ?_⟩
  · obtain ⟨m, hm, hok⟩ := ht.copyout_spec va src
    refine ⟨?_, m, hm, fun x hx => hm.other hx⟩
    rw [hok, decide_eq_true_iff, hm.all_iff]
  · obtain ⟨m, hle, hin, hout⟩ := exists_stop (fun i => UserAt k pagetable (va + i)) len
    obtain ⟨hto, hval⟩ := ht.copyin_spec hva hle hin hout
    grind
  · obtain ⟨m, hm, hok'⟩ := ht.copyout_spec va src
    obtain rfl := of_decide_eq_true (hok'.symm.trans hok)
    have hin : ∀ i < src.length, UserAt (copyout k pagetable va src).2 pagetable (va + i) :=
      fun i hi => hm.table.userAt.mpr (hm.user i hi)
    have hval := ((hm.table.userTable ht).copyin_spec hva (le_refl _) hin
      fun h => absurd h (lt_irrefl _)).2
    rw [hval, if_pos rfl, hm.stored hinj]

/-- Across the page boundary of a process with two pages. -/
theorem copies_respect_mapping_boundary : ∃ (S : KSys 2) (pt : Nat),
    (S.proc 0).pagetable = some pt ∧ UserTable S.kmem pt
      ∧ (copyout S.kmem pt 4094 [1, 2, 3, 4]).1 = true
      ∧ copyin (copyout S.kmem pt 4094 [1, 2, 3, 4]).2 pt 4094 4 = some [1, 2, 3, 4]
      ∧ (copyout S.kmem pt 8190 [1, 2, 3, 4]).1 = false := by
  obtain ⟨S, S', hboot, hrun, hP⟩ := bootRun_spec
    [(.userinit [19, 5, 0, 0], []), (.sbrk 0 4096, [])]
    (fun S => (S.proc 0).pagetable.any fun pt =>
      decide ((∀ i : Nat, i < 4 → UserAt S.kmem pt (4094 + i)) ∧ ¬UserAt S.kmem pt 8192
        ∧ ∀ i : Nat, i < 4 → ∀ j : Nat, j < 4 →
          physAddr S.kmem pt (4094 + i) = physAddr S.kmem pt (4094 + j) → i = j))
    (by decide +kernel)
  obtain ⟨pt, hpt, hP⟩ := (Option.any_eq_true ..).mp hP
  obtain ⟨hin, hout, hinj⟩ := of_decide_eq_true hP
  have ht := reachable_userTable hboot hrun hpt
  obtain ⟨hcopy, -, hback⟩ := copies_respect_mapping ht (show 4094 < 2 ^ 64 by decide)
  have hok := (hcopy [1, 2, 3, 4]).1.mpr hin
  refine ⟨S', pt, hpt, ht, hok, hback _ hok hinj, ?_⟩
  have hiff := ((copies_respect_mapping ht (show 8190 < 2 ^ 64 by decide)).1 [1, 2, 3, 4]).1
  exact Bool.eq_false_iff.mpr fun h => hout (hiff.mp h 2 (by decide))

/-- A table whose bottom page is also a user page, with its last entry for
another one. -/
def selfMapped : Kmem where
  cell pg :=
    if pg = 0x1000 then (ByteVec.fill PGSIZE 0).setWord 8 (8 * 0) (PA2PTE 0x2000 ||| PTE_V)
    else if pg = 0x2000 then (ByteVec.fill PGSIZE 0).setWord 8 (8 * 0) (PA2PTE 0x3000 ||| PTE_V)
    else if pg = 0x3000 then
      ((ByteVec.fill PGSIZE 0).setWord 8 (8 * 510) (mapEntry 0x3000 (PTE_R ||| PTE_W ||| PTE_U))).setWord
        8 (8 * 511) (mapEntry 0x4000 (PTE_R ||| PTE_W ||| PTE_U))
    else ByteVec.fill PGSIZE 0
  free := []
  fails := []

theorem nonzeroPages_of_entries
    (h : ∀ p, pteHas (k.pte p) PTE_V = true → PTE2PA (k.pte p) ≠ 0) : NonzeroPages k pagetable where
  nonzero {va pte} hleaf hv _ := by
    rw [leafPte_eq] at hleaf
    split at hleaf
    · obtain ⟨p, -, rfl⟩ := map_eq_some_iff.mp hleaf
      exact h p hv
    · cases hleaf

theorem selfMapped_nonzero : NonzeroPages selfMapped 0x1000 := by
  refine nonzeroPages_of_entries fun p => ?_
  -- an entry that is none of the four is 0
  have hzero : ∀ w : Nat, w = 0 → pteHas w PTE_V = true → PTE2PA w ≠ 0 := fun w hw hv => by
    rw [hw, pteHas_zero] at hv
    cases hv
  rcases p with ⟨pg, ix⟩
  simp only [selfMapped, Kmem.pte]
  split
  · rcases eq_or_ne ix 0 with rfl | hix
    · decide +kernel
    · rw [ByteVec.word_setWord_disjoint (by omega), ByteVec.word_fill_zero]
      exact hzero 0 rfl
  · split
    · rcases eq_or_ne ix 0 with rfl | hix
      · decide +kernel
      · rw [ByteVec.word_setWord_disjoint (by omega), ByteVec.word_fill_zero]
        exact hzero 0 rfl
    · split
      · rcases eq_or_ne ix 511 with rfl | hix
        · decide +kernel
        · rw [ByteVec.word_setWord_disjoint (by omega)]
          rcases eq_or_ne ix 510 with rfl | hix'
          · decide +kernel
          · rw [ByteVec.word_setWord_disjoint (by omega), ByteVec.word_fill_zero]
            exact hzero 0 rfl
      · rw [ByteVec.word_fill_zero]
        exact hzero 0 rfl

/-- The first eight bytes stored are the entry of the page of the ninth. -/
theorem copyout_own_table : ∃ (k : Kmem) (pt va : Nat) (src : List Byte), NonzeroPages k pt
    ∧ (∀ i < src.length, UserAt k pt (va + i)) ∧ (copyout k pt va src).1 = false :=
  ⟨selfMapped, 0x1000, 510 * PGSIZE + 8 * 511, [0, 0, 0, 0, 0, 0, 0, 0, 0], selfMapped_nonzero,
    by decide +kernel, by decide +kernel⟩

end Claim

end Xv6.Vm
