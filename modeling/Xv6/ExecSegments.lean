import Xv6.ExecImage

/-!
# What the program headers say

The offsets in the headers of a file are 64-bit numbers. `exec` should
load each segment from where its header says, and refuse a file that does
not reach as far as its headers say. It keeps the offset of the headers in
an `int` and hands the offset of a segment on as an `uint`, so that it
does so exactly when these are below 2^32: beyond, it takes the low 32
bits for the offset and may find a file there.
-/

namespace Xv6.Vm

open List Nat

open ByteVec (Byte leNat leBytes)
open Transfer Radix Ranges StepSystem

variable {np : Nat}

/-! ## The file and its image -/

/-- The `i`th program header, where the file says. -/
def segAt (content : List Byte) (i : Nat) : Proghdr :=
  proghdrAt content ((elfhdr content).phoff + proghdrSize * i)

/-- The `i`th program header is of a segment to load. -/
def Loadable (content : List Byte) (i : Nat) : Prop :=
  i < (elfhdr content).phnum ∧ (segAt content i).type = ELF_PROG_LOAD

instance (content : List Byte) (i : Nat) : Decidable (Loadable content i) :=
  inferInstanceAs (Decidable (_ ∧ _))

/-- The headers and the segments are in the file. -/
structure Within (content : List Byte) : Prop where
  headers : ∀ i < (elfhdr content).phnum,
    (elfhdr content).phoff + proghdrSize * i + proghdrSize ≤ content.length
  segments : ∀ i, Loadable content i →
    (segAt content i).filesz = 0 ∨ (segAt content i).off + (segAt content i).filesz ≤ content.length

/-- The segments are in disjoint pages, in increasing order. -/
def Ordered (content : List Byte) : Prop :=
  ∀ i j, i < j → Loadable content i → Loadable content j → 0 < (segAt content i).memsz →
    0 < (segAt content j).memsz →
    npg ((segAt content i).vaddr + (segAt content i).memsz) ≤ (segAt content j).vaddr / PGSIZE

/-- The address space of `p` is the one the headers describe. -/
structure LoadedAs (content : List Byte) (S : KSys np) (p : Fin np) : Prop where
  mapped : ∀ i, Loadable content i → ∀ j < (segAt content i).memsz,
    ∃ pt ∈ (S.proc p).pagetable, UserAt S.kmem pt ((segAt content i).vaddr + j)
  file : ∀ i, Loadable content i → ∀ j < (segAt content i).filesz,
    content[(segAt content i).off + j]? = some (userByte S p ((segAt content i).vaddr + j))
  zero : ∀ i, Loadable content i → ∀ j, (segAt content i).filesz ≤ j →
    j < (segAt content i).memsz → userByte S p ((segAt content i).vaddr + j) = 0
  gaps : ∀ va < (S.proc p).sz - PGSIZE, (∀ i, Loadable content i →
    va < (segAt content i).vaddr ∨ (segAt content i).vaddr + (segAt content i).memsz ≤ va) →
      userByte S p va = 0
  epc : ∃ tf ∈ (S.proc p).trapframe, (S.kmem.cell tf).word 8 epcOff = (elfhdr content).entry

/-- What should hold when `exec` has loaded a file for `p`. -/
def LoadSpec (content : List Byte) (S : KSys np) (p : Fin np) : Prop :=
  Within content ∧ (Ordered content → LoadedAs content S p)

/-- The offsets that `exec` needs fit in 32 bits. -/
structure InWords (content : List Byte) : Prop where
  headers : (elfhdr content).phnum = 0 ∨ (elfhdr content).phoff < 2 ^ 32
  segments : ∀ i, Loadable content i →
    (segAt content i).filesz = 0 ∨ (segAt content i).off < 2 ^ 32

/-! ## Reading the loaded image -/

section Image

variable {content : List Byte} {f : Nat → Byte} {x : Nat}

/-- No segment of these headers has file bytes at `x`. -/
def Uncovered (content : List Byte) (offs : List Nat) (x : Nat) : Prop :=
  ∀ off ∈ offs, (proghdrAt content off).type = ELF_PROG_LOAD →
    x < (proghdrAt content off).vaddr
      ∨ (proghdrAt content off).vaddr + (proghdrAt content off).filesz ≤ x

theorem loadSegment_out {off : Nat} (h : (proghdrAt content off).type = ELF_PROG_LOAD →
    x < (proghdrAt content off).vaddr
      ∨ (proghdrAt content off).vaddr + (proghdrAt content off).filesz ≤ x) :
    loadSegment content f off x = f x := by
  simp only [loadSegment]
  split
  · have hle : (fileBytes content ((proghdrAt content off).off % 2 ^ 32)
        (proghdrAt content off).filesz).length ≤ (proghdrAt content off).filesz :=
      length_take_le ..
    exact put_out (by omega)
  · rfl

theorem loadImage_out {offs : List Nat} (h : Uncovered content offs x) :
    loadImage content offs f x = f x := by
  induction offs generalizing f with
  | nil => rfl
  | cons off offs ih =>
    rw [loadImage, foldl_cons, ← loadImage, ih fun o ho => h o (mem_cons_of_mem off ho),
      loadSegment_out (h off mem_cons_self)]

/-- The last segment with a byte at `x` decides. -/
theorem loadImage_in {offs offs' : List Nat} {off j : Nat}
    (htype : (proghdrAt content off).type = ELF_PROG_LOAD) (hj : j < (proghdrAt content off).filesz)
    (hfile : (proghdrAt content off).off % 2 ^ 32 + (proghdrAt content off).filesz ≤ content.length)
    (hlater : Uncovered content offs' ((proghdrAt content off).vaddr + j)) :
    content[(proghdrAt content off).off % 2 ^ 32 + j]?
      = some (loadImage content (offs ++ off :: offs') f ((proghdrAt content off).vaddr + j)) := by
  have hlen := fileBytes_length hfile
  rw [loadImage, foldl_append, foldl_cons, ← loadImage, ← loadImage, loadImage_out hlater]
  simp only [loadSegment, htype, if_true]
  rw [put_in (by omega)]
  simp only [fileBytes, getElem_take, getElem_drop]
  rw [getElem?_eq_getElem]

end Image

/-! ## In words -/

section Words

variable {content : List Byte} {sz : Nat}

/-- The headers are read where the file says. -/
theorem InWords.header_in (hw : InWords content) (hlen : content.length < 2 ^ 32)
    (hacc : Accepted content (headersOf content) sz) : ∀ i < (elfhdr content).phnum,
      (elfhdr content).phoff + proghdrSize * i + proghdrSize ≤ content.length := by
  intro i hi
  have hread : ∀ j < (elfhdr content).phnum,
      ((elfhdr content).phoff + proghdrSize * j) % 2 ^ 32 + proghdrSize ≤ content.length :=
    fun j hj => (hacc _ (by
      rw [headersOf, headerOffs_eq]
      exact mem_map.mpr ⟨j, mem_range.mpr hj, rfl⟩)).1
  induction i with
  | zero =>
    have hphoff := hw.headers.resolve_left (ne_of_gt hi)
    have := hread 0 hi
    rwa [mod_eq_of_lt (show (elfhdr content).phoff + proghdrSize * 0 < 2 ^ 32 from hphoff)]
      at this
  | succ i ih =>
    have := hread (i + 1) hi
    rwa [mod_eq_of_lt (by rw [mul_succ]; omega)] at this

theorem InWords.headersOf_eq (hw : InWords content) (hlen : content.length < 2 ^ 32)
    (hacc : Accepted content (headersOf content) sz) :
    headersOf content = (range (elfhdr content).phnum).map fun i =>
      (elfhdr content).phoff + proghdrSize * i := by
  rw [headersOf, headerOffs_eq]
  refine map_congr_left fun i hi => mod_eq_of_lt ?_
  have := hw.header_in hlen hacc i (mem_range.mp hi)
  omega

/-- What was asked of a loadable segment. -/
theorem InWords.fits (hw : InWords content) (hlen : content.length < 2 ^ 32)
    (hacc : Accepted content (headersOf content) sz) {i : Nat} (hi : Loadable content i) :
    Fits content (segAt content i) sz := by
  refine (hacc _ ?_).2 hi.2
  rw [hw.headersOf_eq hlen hacc]
  exact mem_map.mpr ⟨i, mem_range.mpr hi.1, rfl⟩

theorem InWords.within (hw : InWords content) (hlen : content.length < 2 ^ 32)
    (hacc : Accepted content (headersOf content) sz) : Within content where
  headers := hw.header_in hlen hacc
  segments i hi := by
    have hfile := (hw.fits hlen hacc hi).file
    rcases hw.segments i hi with h0 | hoff
    · exact .inl h0
    · rwa [mod_eq_of_lt hoff] at hfile

theorem Within.inWords (h : Within content) (hlen : content.length < 2 ^ 32) : InWords content where
  headers := by
    rcases Nat.eq_zero_or_pos (elfhdr content).phnum with h0 | hpos
    · exact .inl h0
    · have := h.headers 0 hpos
      exact .inr (by omega)
  segments i hi := (h.segments i hi).imp_right fun hle => by omega

/-- An address in one segment is in no other. -/
theorem Ordered.apart (h : Ordered content) {i j x : Nat} (hi : Loadable content i)
    (hj : Loadable content j) (hne : i ≠ j) (hlow : (segAt content i).vaddr ≤ x)
    (hhigh : x < (segAt content i).vaddr + (segAt content i).memsz) :
    x < (segAt content j).vaddr ∨ (segAt content j).vaddr + (segAt content j).memsz ≤ x := by
  rcases Nat.eq_zero_or_pos (segAt content j).memsz with h0 | hpos
  · omega
  have hpos' : 0 < (segAt content i).memsz := by omega
  rcases lt_or_gt_of_ne hne with hlt | hgt
  · have hpages : npg ((segAt content i).vaddr + (segAt content i).memsz)
        ≤ (segAt content j).vaddr / 4096 := h i j hlt hi hj hpos' hpos
    have := le_npg ((segAt content i).vaddr + (segAt content i).memsz)
    omega
  · have hpages : npg ((segAt content j).vaddr + (segAt content j).memsz)
        ≤ (segAt content i).vaddr / 4096 := h j i hgt hj hi hpos hpos'
    have := le_npg ((segAt content j).vaddr + (segAt content j).memsz)
    omega

/-- The image at an address outside the file bytes of all segments. -/
theorem InWords.image_zero (hw : InWords content) (hlen : content.length < 2 ^ 32)
    (hacc : Accepted content (headersOf content) sz) {x : Nat}
    (h : ∀ i, Loadable content i → x < (segAt content i).vaddr
      ∨ (segAt content i).vaddr + (segAt content i).filesz ≤ x) :
    loadImage content (headersOf content) (fun _ => 0) x = 0 := by
  refine loadImage_out fun off hoff htype => ?_
  rw [hw.headersOf_eq hlen hacc] at hoff
  obtain ⟨i, hi, rfl⟩ := mem_map.mp hoff
  exact h i ⟨mem_range.mp hi, htype⟩

/-- The image at a file byte of a segment. -/
theorem InWords.image_file (hw : InWords content) (hlen : content.length < 2 ^ 32)
    (hacc : Accepted content (headersOf content) sz) (hord : Ordered content) {i j : Nat}
    (hi : Loadable content i) (hj : j < (segAt content i).filesz) :
    content[(segAt content i).off + j]?
      = some (loadImage content (headersOf content) (fun _ => 0) ((segAt content i).vaddr + j)) := by
  have hfits := hw.fits hlen hacc hi
  have hoff := (hw.segments i hi).resolve_left (by omega)
  have hmod : (segAt content i).off % 2 ^ 32 = (segAt content i).off := mod_eq_of_lt hoff
  have hsizes := hfits.sizes
  obtain ⟨d, hd⟩ := Nat.exists_eq_add_of_lt hi.1
  have hsplit : headersOf content = (range i).map (fun i => (elfhdr content).phoff + proghdrSize * i)
      ++ ((elfhdr content).phoff + proghdrSize * i)
        :: (range d).map fun m => (elfhdr content).phoff + proghdrSize * (i + (m + 1)) := by
    rw [hw.headersOf_eq hlen hacc, hd, add_assoc, range_add, map_append,
      range_succ_eq_map]
    simp [Function.comp_def]
  rw [hsplit, ← hmod]
  refine loadImage_in hi.2 hj (hfits.file.resolve_left (by omega)) fun off hmem htype => ?_
  obtain ⟨m, hm, rfl⟩ := mem_map.mp hmem
  have hlater : Loadable content (i + (m + 1)) :=
    ⟨by have := mem_range.mp hm; omega, htype⟩
  have hle := (hw.fits hlen hacc hlater).sizes
  have hout := hord.apart (x := (segAt content i).vaddr + j) hi hlater (by omega) (by omega)
    (by omega)
  unfold segAt at hle hout
  omega

end Words

/-! ## What is loaded -/

section Loaded

variable {M : Machine} {S S' : KSys np} {p : Fin np} {t t' : Table} {pt pt' tf sz : Nat}
  {argv : List Nat} {strs : List (List Byte)} {k' : Kmem} {path content : List Byte}
  {g : Nat → Byte}

/-- The image of a file whose offsets fit in words. -/
theorem Committed.loadedAs (h : Committed M S p tf path content strs S' t' pt' sz g)
    (hr : Ready M tf S.kmem content k' t' pt' sz) (htf : (S.proc p).trapframe = some tf)
    (hlen : content.length < 2 ^ 32) (hw : InWords content) (hord : Ordered content) :
    LoadedAs content S' p := by
  have hpt : (S'.proc p).pagetable = some pt' := by rw [h.proc]
  have hbase : (S'.proc p).sz - PGSIZE = (npg sz + 1) * 4096 := by
    rw [h.proc, Nat.succ_mul (npg sz + 1), Nat.add_sub_cancel]
  have hpages := le_npg sz
  have hbyte : ∀ {x}, x < (npg sz + 1) * 4096 →
      userByte S' p x = loadImage content (headersOf content) (fun _ => 0) x := fun {x} hx => by
    rw [h.holds.userByte hpt (lt_of_lt_of_le hx (mul_le_mul_right _ (le_succ _))),
      h.below x hx]
  -- a segment ends below the guard page
  have hseg : ∀ {i}, Loadable content i →
      (segAt content i).vaddr + (segAt content i).memsz ≤ npg sz * 4096
        ∧ (segAt content i).filesz ≤ (segAt content i).memsz := fun hi =>
    have hfits := hw.fits hlen hr.accepted hi
    ⟨hfits.inside.trans hpages, hfits.sizes⟩
  refine ⟨fun i hi j hj => ⟨pt', hpt, ?_⟩, fun i hi j hj => ?_, fun i hi j h1 h2 => ?_,
    fun va hva hout => ?_, tf, ?_, h.epc⟩
  · obtain ⟨hend, -⟩ := hseg hi
    have hlt : (segAt content i).vaddr + j < npg sz * 4096 := by omega
    exact h.holds.userAt (lt_of_lt_of_le hlt (mul_le_mul_right _ (by omega)))
      (hr.user _ (vpn_lt_npages hlt))
  · obtain ⟨hend, hsizes⟩ := hseg hi
    rw [hbyte (by omega)]
    exact hw.image_file hlen hr.accepted hord hi hj
  · obtain ⟨hend, hsizes⟩ := hseg hi
    rw [hbyte (by omega)]
    refine hw.image_zero hlen hr.accepted fun i' hi' => ?_
    rcases eq_or_ne i i' with rfl | hne
    · exact .inr (by omega)
    · have hle := (hseg hi').2
      have := hord.apart (x := (segAt content i).vaddr + j) hi hi' hne (by omega) (by omega)
      omega
  · rw [hbase] at hva
    rw [hbyte hva]
    refine hw.image_zero hlen hr.accepted fun i hi => ?_
    grind
  · rw [h.proc]
    exact htf

/-- **`exec` loads what the headers say when their offsets fit in 32
bits**, and only then does it refuse a file that is too short for them. -/
theorem load_follows_headers_iff (namei : List Byte → Option (List Byte)) (path : List Byte)
    (h : Calls M S p t pt tf argv strs) (hfile : namei path = some content)
    (hlen : content.length < 2 ^ 32) {r : Int} (hexec : exec M S p namei path argv = .ok (r, S'))
    (hr : r ≠ -1) : LoadSpec content S' p ↔ InWords content := by
  refine ⟨fun hspec => hspec.1.inWords hlen, fun hw => ?_⟩
  have hlens : ∀ content', namei path = some content' → content'.length < 2 ^ 32 := fun c hc =>
    Option.some.inj (hfile.symm.trans hc) ▸ hlen
  rcases h.exec_cases hlens with hno | ⟨content', k', t', pt', sz, hfile', hready⟩
  · obtain ⟨S₁, hfail⟩ := hno argv
    grind
  obtain rfl : content = content' := Option.some.inj (hfile.symm.trans hfile')
  refine ⟨hw.within hlen hready.accepted, fun hord => ?_⟩
  rcases lt_or_ge 4096 (argSize strs) with hfull | hfit
  · obtain ⟨S₁, hfail⟩ := hready.exec_full h hfile hfull
    grind
  · obtain ⟨S₁, g, hok, hc⟩ := hready.exec_fits h hfile hfit
    cases hexec.symm.trans hok
    exact hc.loadedAs hready h.lives.trapframe hlen hw hord

/-- A file with its segment at offset 120. -/
theorem load_follows_headers_small : ∃ S' : KSys 2, LoadSpec (smallElf 120) S' 0 := by
  obtain ⟨S, S', t, pt, tf, hcalls, hexec⟩ := exec_first (smallElf 120) (by decide +kernel)
  refine ⟨S', (load_follows_headers_iff (fun _ => some (smallElf 120)) [] hcalls rfl
    (by decide +kernel) hexec (by decide)).mpr ⟨.inr (by decide +kernel), fun i hi => ?_⟩⟩
  have hphnum : (elfhdr (smallElf 120)).phnum = 1 := by decide +kernel
  obtain rfl : i = 0 := by
    have := hi.1
    omega
  exact .inr (by decide +kernel)

/-- A file whose header puts the segment at 2^32 + 120, beyond its end, is
loaded. -/
theorem load_low_offset : ∃ S S' : KSys 2,
    exec smallMachine S 0 (fun _ => some (smallElf (2 ^ 32 + 120))) [] [] = .ok (0, S')
      ∧ Loadable (smallElf (2 ^ 32 + 120)) 0
      ∧ (smallElf (2 ^ 32 + 120)).length < (segAt (smallElf (2 ^ 32 + 120)) 0).off
      ∧ ¬LoadSpec (smallElf (2 ^ 32 + 120)) S' 0 := by
  obtain ⟨S, S', t, pt, tf, -, hexec⟩ := exec_first (smallElf (2 ^ 32 + 120))
    (by decide +kernel)
  have hload : Loadable (smallElf (2 ^ 32 + 120)) 0 := by decide +kernel
  have hoff : (segAt (smallElf (2 ^ 32 + 120)) 0).off = 2 ^ 32 + 120 := by decide +kernel
  have hfilesz : (segAt (smallElf (2 ^ 32 + 120)) 0).filesz = 4 := by decide +kernel
  have hlen : (smallElf (2 ^ 32 + 120)).length = 124 := by decide +kernel
  refine ⟨S, S', hexec, hload, by omega, fun hspec => ?_⟩
  have := hspec.1.segments 0 hload
  omega

end Loaded

end Xv6.Vm
