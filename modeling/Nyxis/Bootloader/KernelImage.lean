import Nyxis.Process.Elf

/-!
# Loading the kernel

{lit}`load_elf_kernel` of {lit}`bootloader/nytb/nytb3.c`.  The file of the kernel lies in memory,
and the loader reads its headers there, once to check them and once more while it copies the
segments.  The record of a run has every access to memory and every range of pages that the
firmware has given away.

Main results:

- Definition {lit}`loadElfKernel`: the loader.
- Theorem {lit}`checkKernelSegments_spec`: the first pass over the program headers.
- Theorem {lit}`copyKernelSegments_spec`: the second pass.
- Theorem {lit}`kernel_elf_faithful`: which memory the loader reads and writes, and what a loaded
  kernel looks like.
-/

namespace Nyxis
namespace Bootloader

open Process (ElfHeader ElfPhdr decodeHeader decodePhdr elfHeaderSize elfPhdrSize elfMagic
  elfClass64 elfData2Lsb etExec emX8664 ptLoad pfX elfMaxPhnum alignUp)
open Mm (hasFlag)

/-! ## The machine -/

/-- The errors of the loader and those of {lit}`AllocatePages`. -/
inductive EfiStatus
  | invalidParameter
  | unsupported
  | outOfResources
  | notFound
  deriving DecidableEq

/-- Memory, with a record of the ranges that have been read and written, and of the pages that the
firmware has given away: first address and number. -/
structure Machine where
  mem : Nat → UInt8
  reads : List (Nat × Nat)
  writes : List (Nat × Nat)
  allocated : List (Nat × Nat)

/-- The computations of the loader. -/
abbrev BootM := Eff EfiStatus Machine

def nytbPageSize : Nat := 4096
def kernelMinAddr : Nat := 0x100000
def kernelMaxAddr : Nat := 0x40000000

/-- Addition of 64-bit numbers. -/
def add64 (a b : Nat) : Nat :=
  (a + b) % 2 ^ 64

/-- Subtraction of 64-bit numbers. -/
def sub64 (a b : Nat) : Nat :=
  (a + 2 ^ 64 - b) % 2 ^ 64

/-- Multiplication of 64-bit numbers. -/
def mul64 (a b : Nat) : Nat :=
  a * b % 2 ^ 64

/-- Read a structure. -/
def readMem (addr len : Nat) : BootM (List UInt8) :=
  fun m => (.ok ((List.range len).map (fun i => m.mem (addr + i))),
    { m with reads := m.reads ++ [(addr, len)] })

/-- {lit}`SetMem`. -/
def setMem (addr len : Nat) (value : UInt8) : BootM Unit :=
  Eff.modify (fun m => { m with
    mem := fun a => if addr ≤ a ∧ a < addr + len then value else m.mem a
    writes := m.writes ++ [(addr, len)] })

/-- {lit}`CopyMem`. -/
def copyMem (dst src len : Nat) : BootM Unit :=
  Eff.modify (fun m => { m with
    mem := fun a => if dst ≤ a ∧ a < dst + len then m.mem (src + (a - dst)) else m.mem a
    reads := m.reads ++ [(src, len)]
    writes := m.writes ++ [(dst, len)] })

/-- {lit}`BS->AllocatePages` of type {lit}`AllocateAddress`, given the number of pages and their
address.  The firmware may write to memory. -/
abbrev Firmware : Type :=
  (pages addr : Nat) → (Nat → UInt8) → Except EfiStatus Unit × (Nat → UInt8)

/-- Ask the firmware for pages. -/
def allocatePages (fw : Firmware) (pages addr : Nat) : BootM Unit :=
  fun m =>
    match fw pages addr m.mem with
    | (.error e, mem) => (.error e, { m with mem := mem })
    | (.ok (), mem) => (.ok (), { m with mem := mem, allocated := m.allocated ++ [(addr, pages)] })

/-! ## The loader -/

/-- The fields of {lit}`ELF64_PROGRAM_HEADER` that the loader uses. -/
structure KernelPhdr extends ElfPhdr where
  paddr : Nat

def decodeKernelPhdr (bytes : List UInt8) : KernelPhdr where
  toElfPhdr := decodePhdr bytes
  paddr := Bytes.field bytes 24 8

/-- {lit}`align_down`. -/
def alignDown (v a : Nat) : Nat :=
  v / a * a

/-- The header of the file. -/
def headerAt (base : Nat) : BootM ElfHeader := do
  let bytes ← readMem base elfHeaderSize
  pure (decodeHeader bytes)

/-- A program header of the file. -/
def phdrAt (base : Nat) (hdr : ElfHeader) (i : Nat) : BootM KernelPhdr := do
  let bytes ← readMem (add64 (add64 base hdr.phoff) (mul64 i elfPhdrSize)) elfPhdrSize
  pure (decodeKernelPhdr bytes)

/-- What the first pass has found so far. -/
structure KernelRange where
  lo : Nat
  hi : Nat
  loads : Nat
  entryOk : Bool

/-- The checks of one program header. -/
def checkKernelSegment (size entry : Nat) (range : KernelRange) (ph : KernelPhdr) :
    Except EfiStatus KernelRange :=
  if ph.type ≠ ptLoad then .ok range
  else if ph.memsz = 0 ∨ ph.filesz > ph.memsz then .error .invalidParameter
  else if ph.offset > size ∨ ph.filesz > sub64 size ph.offset then .error .invalidParameter
  else if ph.paddr < kernelMinAddr ∨ ph.paddr ≥ kernelMaxAddr ∨
      ph.memsz > sub64 kernelMaxAddr ph.paddr then .error .invalidParameter
  else .ok {
    lo := if alignDown ph.paddr nytbPageSize < range.lo then alignDown ph.paddr nytbPageSize
      else range.lo
    hi := if alignUp (add64 ph.paddr ph.memsz) nytbPageSize > range.hi then
        alignUp (add64 ph.paddr ph.memsz) nytbPageSize
      else range.hi
    loads := add64 range.loads 1
    entryOk := range.entryOk || (hasFlag ph.flags pfX && decide (entry ≥ ph.vaddr) &&
      decide (sub64 entry ph.vaddr < ph.memsz) && ph.vaddr == ph.paddr) }

/-- The first pass, with {lit}`n` program headers left.  It stores nothing, so the header of the
file stays what it was. -/
def checkKernelSegments (base size : Nat) (hdr : ElfHeader) :
    (n i : Nat) → KernelRange → BootM KernelRange
  | 0, _, range => pure range
  | n + 1, i, range => do
      let ph ← phdrAt base hdr i
      match checkKernelSegment size hdr.entry range ph with
      | .error e => Eff.fail e
      | .ok range' => checkKernelSegments base size hdr n (i + 1) range'

/-- The second pass.  Its stores come between the reads, so each turn of the loop reads the header
of the file anew.  The number of program headers is a 16-bit field, which bounds the loop. -/
def copyKernelSegments (base : Nat) : (fuel i : Nat) → BootM Unit
  | 0, _ => pure ()
  | fuel + 1, i => do
      let hdr ← headerAt base
      if i < hdr.phnum then do
        let ph ← phdrAt base hdr i
        if ph.type ≠ ptLoad ∨ ph.filesz = 0 then
          copyKernelSegments base fuel (i + 1)
        else do
          copyMem ph.paddr (add64 base ph.offset) ph.filesz
          copyKernelSegments base fuel (i + 1)
      else
        pure ()

/-- The part of {lit}`load_elf_kernel` behind the first pass. -/
def placeKernel (fw : Firmware) (base : Nat) (range : KernelRange) : BootM Nat :=
  if range.loads = 0 ∨ range.entryOk = false ∨ range.hi ≤ range.lo then
    Eff.fail .invalidParameter
  else do
    allocatePages fw (sub64 range.hi range.lo / nytbPageSize) range.lo
    setMem range.lo (sub64 range.hi range.lo) 0
    copyKernelSegments base (2 ^ 16) 0
    let hdr ← headerAt base
    pure hdr.entry

/-- {lit}`load_elf_kernel`, for a file of {lit}`size` bytes at {lit}`base`; it ends in the entry
point. -/
def loadElfKernel (fw : Firmware) (base size : Nat) : BootM Nat :=
  if size < elfHeaderSize then
    Eff.fail .invalidParameter
  else do
    let hdr ← headerAt base
    if hdr.magic ≠ elfMagic ∨ hdr.cls ≠ elfClass64 ∨ hdr.data ≠ elfData2Lsb ∨
        hdr.type ≠ etExec ∨ hdr.machine ≠ emX8664 then
      Eff.fail .unsupported
    else if hdr.phentsize ≠ elfPhdrSize ∨ hdr.phnum = 0 ∨ hdr.phnum > elfMaxPhnum then
      Eff.fail .invalidParameter
    else if hdr.phoff > size ∨ mul64 hdr.phnum hdr.phentsize > sub64 size hdr.phoff then
      Eff.fail .invalidParameter
    else do
      let range ← checkKernelSegments base size hdr hdr.phnum 0
        { lo := 2 ^ 64 - 1, hi := 0, loads := 0, entryOk := false }
      placeKernel fw base range

/-! ## The file in memory -/

/-- A file lies in memory, all of it below the end of the address space. -/
structure FileAt (base : Nat) (content : List UInt8) (mem : Nat → UInt8) : Prop where
  size : content.length < 2 ^ 64
  fits : base + content.length ≤ 2 ^ 64
  bytes : ∀ i (hi : i < content.length), mem (base + i) = content[i]

/-- The bytes of a range are inside another range. -/
def InRange (lo hi : Nat) (r : Nat × Nat) : Prop :=
  lo ≤ r.1 ∧ r.1 + r.2 ≤ hi

/-- Reading is all that has happened, and it has stayed within the file. -/
structure OnlyRead (base : Nat) (content : List UInt8) (m m' : Machine) : Prop where
  mem : m'.mem = m.mem
  writes : m'.writes = m.writes
  allocated : m'.allocated = m.allocated
  reads : ∃ more, m'.reads = m.reads ++ more ∧
    ∀ r ∈ more, InRange base (base + content.length) r

variable {base : Nat} {content : List UInt8} {m m' m'' : Machine}

theorem OnlyRead.refl (m : Machine) : OnlyRead base content m m :=
  ⟨rfl, rfl, rfl, [], (List.append_nil _).symm, nofun⟩

theorem OnlyRead.trans (h : OnlyRead base content m m') (h' : OnlyRead base content m' m'') :
    OnlyRead base content m m'' := by
  obtain ⟨more, hmore, hin⟩ := h.reads
  obtain ⟨more', hmore', hin'⟩ := h'.reads
  refine ⟨h'.mem.trans h.mem, h'.writes.trans h.writes, h'.allocated.trans h.allocated,
    more ++ more', ?_, fun r hr => ?_⟩
  · rw [hmore', hmore, List.append_assoc]
  · rcases List.mem_append.mp hr with hr | hr
    · exact hin r hr
    · exact hin' r hr

/-- A structure inside the file. -/
theorem readMem_file (h : FileAt base content m.mem) {off len : Nat}
    (hin : off + len ≤ content.length) :
    Eff.Post (readMem (base + off) len) m (fun r m' =>
      r = .ok ((content.drop off).take len) ∧ OnlyRead base content m m') := by
  refine Eff.post_of_eq rfl ⟨congrArg Except.ok ?_, rfl, rfl, rfl, [(base + off, len)], rfl, ?_⟩
  · apply List.ext_getElem
    · rw [List.length_map, List.length_range, List.length_take, List.length_drop]
      omega
    · intro i hi _
      rw [List.length_map, List.length_range] at hi
      rw [List.getElem_map, List.getElem_range, List.getElem_take, List.getElem_drop, Nat.add_assoc]
      exact h.bytes (off + i) (by omega)
  · intro r hr
    rw [List.mem_singleton.mp hr]
    exact ⟨Nat.le_add_right base off, by dsimp only; omega⟩

/-- The header of a file. -/
def kernelHeader (content : List UInt8) : ElfHeader :=
  decodeHeader (content.take elfHeaderSize)

/-- A program header of a file. -/
def kernelPhdr (content : List UInt8) (i : Nat) : KernelPhdr :=
  decodeKernelPhdr ((content.drop ((kernelHeader content).phoff + i * elfPhdrSize)).take elfPhdrSize)

/-- The program headers of a file. -/
def kernelPhdrs (content : List UInt8) : List KernelPhdr :=
  (List.range (kernelHeader content).phnum).map (kernelPhdr content)

theorem headerAt_file (h : FileAt base content m.mem) (hsize : elfHeaderSize ≤ content.length) :
    Eff.Post (headerAt base) m (fun r m' =>
      r = .ok (kernelHeader content) ∧ OnlyRead base content m m') := by
  have hin : 0 + elfHeaderSize ≤ content.length := by omega
  have hread := readMem_file h hin
  rw [Nat.add_zero, List.drop_zero] at hread
  refine Eff.post_bind hread (fun _ _ hcon => nomatch hcon.1) ?_
  rintro bytes m' ⟨hbytes, hreads⟩
  refine Eff.post_of_eq rfl ⟨?_, hreads⟩
  rw [Except.ok.inj hbytes]
  rfl

/-- The headers of the file lie inside it. -/
structure HeadersFit (content : List UInt8) : Prop where
  header : elfHeaderSize ≤ content.length
  phnum : (kernelHeader content).phnum ≤ elfMaxPhnum
  table : (kernelHeader content).phoff + (kernelHeader content).phnum * elfPhdrSize ≤ content.length

theorem phdrAt_file (h : FileAt base content m.mem) (hfit : HeadersFit content) {i : Nat}
    (hi : i < (kernelHeader content).phnum) :
    Eff.Post (phdrAt base (kernelHeader content) i) m (fun r m' =>
      r = .ok (kernelPhdr content i) ∧ OnlyRead base content m m') := by
  have htable := hfit.table
  have hfits := h.fits
  have hphsize : elfPhdrSize = 56 := rfl
  have hstep : i * elfPhdrSize + elfPhdrSize ≤ (kernelHeader content).phnum * elfPhdrSize := by
    rw [← Nat.succ_mul]
    exact Nat.mul_le_mul_right _ hi
  have haddr : add64 (add64 base (kernelHeader content).phoff) (mul64 i elfPhdrSize) =
      base + ((kernelHeader content).phoff + i * elfPhdrSize) := by
    rw [add64, add64, mul64, Nat.mod_eq_of_lt (a := base + _) (by omega),
      Nat.mod_eq_of_lt (a := i * elfPhdrSize) (by omega), Nat.mod_eq_of_lt (by omega), Nat.add_assoc]
  unfold phdrAt
  rw [haddr]
  refine Eff.post_bind (readMem_file h (by omega)) (fun _ _ hcon => nomatch hcon.1) ?_
  rintro bytes m' ⟨hbytes, hreads⟩
  refine Eff.post_of_eq rfl ⟨?_, hreads⟩
  rw [Except.ok.inj hbytes]
  rfl

/-! ## The first pass -/

theorem add64_eq {a b : Nat} (h : a + b < 2 ^ 64) : add64 a b = a + b :=
  Nat.mod_eq_of_lt h

theorem sub64_eq {a b : Nat} (hle : b ≤ a) (ha : a < 2 ^ 64) : sub64 a b = a - b := by
  unfold sub64
  omega

/-- A segment that may be run, whose virtual and physical addresses coincide, holds the entry
point. -/
structure EntryIn (entry : Nat) (ph : KernelPhdr) : Prop where
  load : ph.type = ptLoad
  executable : hasFlag ph.flags pfX = true
  identity : ph.vaddr = ph.paddr
  lower : ph.vaddr ≤ entry
  upper : entry < ph.vaddr + ph.memsz

/-- A segment lies in the range of the kernel, and the bytes for it lie in the file. -/
structure SegmentPlace (size : Nat) (range : KernelRange) (ph : KernelPhdr) : Prop where
  filesz : ph.filesz ≤ ph.memsz
  inside : ph.offset + ph.filesz ≤ size
  lower : range.lo ≤ ph.paddr
  upper : ph.paddr + ph.memsz ≤ range.hi

/-- The range that has been found so far is made of pages that a kernel may use. -/
structure RangeOk (range : KernelRange) : Prop where
  lower : alignDown kernelMinAddr nytbPageSize ≤ range.lo
  upper : range.hi ≤ kernelMaxAddr
  lo_aligned : range.lo = 2 ^ 64 - 1 ∨ range.lo % nytbPageSize = 0
  hi_aligned : range.hi % nytbPageSize = 0

/-- What the checks of the program headers from {lit}`i` to {lit}`i + n` have found. -/
structure Passed (content : List UInt8) (range range' : KernelRange) (i n : Nat) : Prop where
  lo_le : range'.lo ≤ range.lo
  le_hi : range.hi ≤ range'.hi
  ok : RangeOk range → RangeOk range'
  entry : range'.entryOk = true → range.entryOk = true ∨
    ∃ j, j < i + n ∧ EntryIn (kernelHeader content).entry (kernelPhdr content j)
  segments : ∀ j, i ≤ j → j < i + n → (kernelPhdr content j).type = ptLoad →
    SegmentPlace content.length range' (kernelPhdr content j)

theorem SegmentPlace.mono {size : Nat} {range range' : KernelRange} {ph : KernelPhdr}
    (h : SegmentPlace size range ph) (hlo : range'.lo ≤ range.lo) (hhi : range.hi ≤ range'.hi) :
    SegmentPlace size range' ph :=
  ⟨h.filesz, h.inside, hlo.trans h.lower, h.upper.trans hhi⟩

theorem Passed.none (range : KernelRange) (i : Nat) : Passed content range range i 0 where
  lo_le := le_refl _
  le_hi := le_refl _
  ok := id
  entry := Or.inl
  segments j hlo hhi := absurd hhi (by omega)

theorem Passed.trans {range range' range'' : KernelRange} {i n : Nat}
    (h : Passed content range range' i 1) (h' : Passed content range' range'' (i + 1) n) :
    Passed content range range'' i (n + 1) where
  lo_le := h'.lo_le.trans h.lo_le
  le_hi := h.le_hi.trans h'.le_hi
  ok hok := h'.ok (h.ok hok)
  entry hentry := by
    rcases h'.entry hentry with hold | ⟨j, hj, hin⟩
    · rcases h.entry hold with hold | ⟨j, hj, hin⟩
      · exact Or.inl hold
      · exact Or.inr ⟨j, by omega, hin⟩
    · exact Or.inr ⟨j, by omega, hin⟩
  segments j hlo hhi htype := by
    by_cases hj : j = i
    · exact (h.segments j hlo (by omega) htype).mono h'.lo_le h'.le_hi
    · exact h'.segments j (by omega) (by omega) htype

theorem checkKernelSegment_passed {range range' : KernelRange} {i : Nat}
    (hsize : content.length < 2 ^ 64)
    (h : checkKernelSegment content.length (kernelHeader content).entry range (kernelPhdr content i) =
      .ok range') : Passed content range range' i 1 := by
  have hmax : kernelMaxAddr = 0x40000000 := rfl
  have hmin : kernelMinAddr = 0x100000 := rfl
  have hpage : nytbPageSize = 4096 := rfl
  have hentry : (kernelHeader content).entry < 2 ^ 64 := Bytes.field_lt _ 24 8
  obtain ⟨ph, hph⟩ : ∃ ph, ph = kernelPhdr content i := ⟨_, rfl⟩
  rw [← hph] at h
  unfold checkKernelSegment at h
  split at h
  next htype =>
    cases h
    refine ⟨le_refl _, le_refl _, id, Or.inl, fun j hlo hhi hload => absurd hload ?_⟩
    have hj : j = i := by omega
    rw [hj, ← hph]
    exact htype
  next =>
  split at h
  · cases h
  next hmem =>
  split at h
  · cases h
  next hfile =>
  split at h
  · cases h
  next hrange =>
  have hload : ph.type = ptLoad := by
    rename_i htype
    exact not_not.mp htype
  rw [not_or] at hmem hfile
  rw [sub64_eq (by omega) hsize] at hfile
  rw [not_or, not_or] at hrange
  rw [sub64_eq (by omega) (by omega)] at hrange
  rw [add64_eq (by omega)] at h
  have hdown : alignDown ph.paddr nytbPageSize ≤ ph.paddr := Nat.div_mul_le_self _ _
  have hup : ph.paddr + ph.memsz ≤ alignUp (ph.paddr + ph.memsz) nytbPageSize ∧
      alignUp (ph.paddr + ph.memsz) nytbPageSize ≤ kernelMaxAddr ∧
      alignUp (ph.paddr + ph.memsz) nytbPageSize % nytbPageSize = 0 := by
    simp only [alignUp, hpage]
    omega
  have hfloor : alignDown kernelMinAddr nytbPageSize ≤ alignDown ph.paddr nytbPageSize ∧
      alignDown ph.paddr nytbPageSize % nytbPageSize = 0 := by
    simp only [alignDown, hpage, hmin]
    omega
  obtain ⟨hup_le, hup_max, hup_mod⟩ := hup
  obtain ⟨hfloor_le, hfloor_mod⟩ := hfloor
  rw [← Except.ok.inj h]
  refine ⟨?_, ?_, fun hok => ⟨?_, ?_, ?_, ?_⟩, ?_, ?_⟩
  · dsimp only
    split <;> omega
  · dsimp only
    split <;> omega
  · have := hok.lower
    dsimp only
    split <;> omega
  · have := hok.upper
    dsimp only
    split <;> omega
  · dsimp only
    split
    · exact Or.inr hfloor_mod
    · exact hok.lo_aligned
  · dsimp only
    split
    · exact hup_mod
    · exact hok.hi_aligned
  · intro hnew
    dsimp only at hnew
    rw [Bool.or_eq_true, Bool.and_eq_true, Bool.and_eq_true, Bool.and_eq_true, decide_eq_true_eq,
      decide_eq_true_eq, beq_iff_eq] at hnew
    rcases hnew with hold | ⟨⟨⟨hx, hlo⟩, hhi⟩, hsame⟩
    · exact Or.inl hold
    · rw [sub64_eq hlo hentry] at hhi
      refine Or.inr ⟨i, by omega, ?_⟩
      rw [← hph]
      exact ⟨hload, hx, hsame, hlo, by omega⟩
  · intro j hlo hhi _
    have hj : j = i := by omega
    rw [hj, ← hph]
    refine ⟨by omega, by omega, ?_, ?_⟩
    · dsimp only
      split <;> omega
    · dsimp only
      split <;> omega

theorem checkKernelSegments_spec (h : FileAt base content m.mem) (hfit : HeadersFit content)
    (n i : Nat) (hin : i + n ≤ (kernelHeader content).phnum) (range : KernelRange) :
    Eff.Post (checkKernelSegments base content.length (kernelHeader content) n i range) m
      (fun r m' => OnlyRead base content m m' ∧
        ∀ range', r = .ok range' → Passed content range range' i n) := by
  induction n generalizing m i range with
  | zero =>
      refine Eff.post_of_eq rfl ⟨OnlyRead.refl m, fun range' hr => ?_⟩
      rw [← Except.ok.inj hr]
      exact Passed.none range i
  | succ n ih =>
      refine Eff.post_bind (phdrAt_file h hfit (i := i) (by omega))
        (fun _ _ hcon => nomatch hcon.1) ?_
      rintro ph m₁ ⟨hph, hread⟩
      rw [Except.ok.inj hph]
      have hfile : FileAt base content m₁.mem := by
        rw [hread.mem]
        exact h
      cases hcheck : checkKernelSegment content.length (kernelHeader content).entry range
          (kernelPhdr content i) with
      | error e => exact Eff.post_of_eq rfl ⟨hread, nofun⟩
      | ok range₁ =>
          refine Eff.post_mono (ih hfile (i + 1) (by omega) range₁) ?_
          rintro r m₂ ⟨hread', hpassed⟩
          refine ⟨hread.trans hread', fun range' hr => ?_⟩
          exact (checkKernelSegment_passed h.size hcheck).trans (hpassed range' hr)

/-! ## The second pass -/

/-- Pages that the firmware gives away belong to nobody else, and it leaves the file alone. -/
structure Reserves (fw : Firmware) (base size : Nat) : Prop where
  kept : ∀ pages addr mem a, base ≤ a → a < base + size → (fw pages addr mem).2 a = mem a
  apart : ∀ pages addr mem, (fw pages addr mem).1 = .ok () →
    ∀ a, addr ≤ a → a < addr + pages * nytbPageSize → ¬(base ≤ a ∧ a < base + size)

/-- No byte of the file lies in a range. -/
def ApartFrom (base size lo hi : Nat) : Prop :=
  ∀ a, lo ≤ a → a < hi → ¬(base ≤ a ∧ a < base + size)

/-- The file is still there, reads have stayed within it and writes within a range. -/
structure Placing (base : Nat) (content : List UInt8) (lo hi : Nat) (m m' : Machine) : Prop where
  file : FileAt base content m'.mem
  allocated : m'.allocated = m.allocated
  reads : ∃ more, m'.reads = m.reads ++ more ∧
    ∀ r ∈ more, InRange base (base + content.length) r
  writes : ∃ more, m'.writes = m.writes ++ more ∧ ∀ w ∈ more, InRange lo hi w

variable {lo hi : Nat}

theorem Placing.of_read (h : FileAt base content m.mem) (hread : OnlyRead base content m m') :
    Placing base content lo hi m m' := by
  refine ⟨?_, hread.allocated, hread.reads, [], ?_, nofun⟩
  · rw [hread.mem]
    exact h
  · rw [hread.writes, List.append_nil]

theorem Placing.trans (h : Placing base content lo hi m m')
    (h' : Placing base content lo hi m' m'') : Placing base content lo hi m m'' := by
  obtain ⟨reads, hreads, hrin⟩ := h.reads
  obtain ⟨reads', hreads', hrin'⟩ := h'.reads
  obtain ⟨writes, hwrites, hwin⟩ := h.writes
  obtain ⟨writes', hwrites', hwin'⟩ := h'.writes
  refine ⟨h'.file, h'.allocated.trans h.allocated, ⟨reads ++ reads', ?_, fun r hr => ?_⟩,
    ⟨writes ++ writes', ?_, fun w hw => ?_⟩⟩
  · rw [hreads', hreads, List.append_assoc]
  · rcases List.mem_append.mp hr with hr | hr
    · exact hrin r hr
    · exact hrin' r hr
  · rw [hwrites', hwrites, List.append_assoc]
  · rcases List.mem_append.mp hw with hw | hw
    · exact hwin w hw
    · exact hwin' w hw

/-- A file that no store has touched. -/
theorem FileAt.congr {mem mem' : Nat → UInt8} (h : FileAt base content mem)
    (hmem : ∀ a, base ≤ a → a < base + content.length → mem' a = mem a) :
    FileAt base content mem' where
  size := h.size
  fits := h.fits
  bytes i hi := (hmem (base + i) (by omega) (by omega)).trans (h.bytes i hi)

/-- The bytes of a segment: those of the file, and zeros behind them. -/
def KernelPlaced (content : List UInt8) (mem : Nat → UInt8) (ph : KernelPhdr) : Prop :=
  ∀ k < ph.memsz, mem (ph.paddr + k) =
    if k < ph.filesz then (content[ph.offset + k]?).getD 0 else 0

/-- Two segments have no physical address in common. -/
def Apart (p q : KernelPhdr) : Prop :=
  p.type = ptLoad → q.type = ptLoad →
    p.paddr + p.memsz ≤ q.paddr ∨ q.paddr + q.memsz ≤ p.paddr

/-- The segments before {lit}`i` are in place, and the memory of the others is still clear. -/
structure FilledTo (content : List UInt8) (mem : Nat → UInt8) (i : Nat) : Prop where
  placed : ∀ j < i, (kernelPhdr content j).type = ptLoad → KernelPlaced content mem (kernelPhdr content j)
  clear : ∀ j, i ≤ j → j < (kernelHeader content).phnum → (kernelPhdr content j).type = ptLoad →
    ∀ k < (kernelPhdr content j).memsz, mem ((kernelPhdr content j).paddr + k) = 0

theorem apart_of_pairwise (h : (kernelPhdrs content).Pairwise Apart) {i j : Nat}
    (hi : i < (kernelHeader content).phnum) (hj : j < (kernelHeader content).phnum) (hne : i ≠ j)
    (hti : (kernelPhdr content i).type = ptLoad) (htj : (kernelPhdr content j).type = ptLoad) :
    (kernelPhdr content i).paddr + (kernelPhdr content i).memsz ≤ (kernelPhdr content j).paddr ∨
      (kernelPhdr content j).paddr + (kernelPhdr content j).memsz ≤ (kernelPhdr content i).paddr := by
  unfold kernelPhdrs at h
  rw [List.pairwise_map, List.pairwise_iff_getElem] at h
  have hlen : (List.range (kernelHeader content).phnum).length = (kernelHeader content).phnum :=
    List.length_range
  rcases Nat.lt_or_gt_of_ne hne with hlt | hgt
  · have hij := h i j (by omega) (by omega) hlt
    rw [List.getElem_range, List.getElem_range] at hij
    exact hij hti htj
  · have hji := h j i (by omega) (by omega) hgt
    rw [List.getElem_range, List.getElem_range] at hji
    exact (hji htj hti).symm

/-- What the first pass has established for every segment. -/
def AllPlaced (content : List UInt8) (range : KernelRange) : Prop :=
  ∀ j < (kernelHeader content).phnum, (kernelPhdr content j).type = ptLoad →
    SegmentPlace content.length range (kernelPhdr content j)

/-- A segment without bytes in the file is in place when its memory is clear. -/
theorem FilledTo.skip {mem : Nat → UInt8} {i : Nat} (h : FilledTo content mem i)
    (hi : i < (kernelHeader content).phnum)
    (hskip : (kernelPhdr content i).type ≠ ptLoad ∨ (kernelPhdr content i).filesz = 0) :
    FilledTo content mem (i + 1) where
  placed j hj htype := by
    by_cases heq : j = i
    · subst heq
      intro k hk
      have hzero : (kernelPhdr content j).filesz = 0 := hskip.resolve_left (not_not.mpr htype)
      rw [if_neg (by omega)]
      exact h.clear j (le_refl j) hi htype k hk
    · exact h.placed j (by omega) htype
  clear j hlo hhi := h.clear j (by omega) hhi

/-- Copying one segment. -/
theorem FilledTo.copy {mem mem' : Nat → UInt8} {i : Nat} (h : FilledTo content mem i)
    (hi : i < (kernelHeader content).phnum) (hload : (kernelPhdr content i).type = ptLoad)
    (hsize : (kernelPhdr content i).filesz ≤ (kernelPhdr content i).memsz)
    (hapart : (kernelPhdrs content).Pairwise Apart)
    (hin : ∀ k < (kernelPhdr content i).filesz, mem' ((kernelPhdr content i).paddr + k) =
      (content[(kernelPhdr content i).offset + k]?).getD 0)
    (hout : ∀ a, ¬((kernelPhdr content i).paddr ≤ a ∧
      a < (kernelPhdr content i).paddr + (kernelPhdr content i).filesz) → mem' a = mem a) :
    FilledTo content mem' (i + 1) := by
  have hother : ∀ j < (kernelHeader content).phnum, j ≠ i → (kernelPhdr content j).type = ptLoad →
      ∀ k < (kernelPhdr content j).memsz,
        mem' ((kernelPhdr content j).paddr + k) = mem ((kernelPhdr content j).paddr + k) := by
    intro j hj hne htype k hk
    refine hout _ ?_
    rcases apart_of_pairwise hapart hj hi hne htype hload with hcmp | hcmp
    · omega
    · omega
  constructor
  · intro j hj htype
    by_cases heq : j = i
    · subst heq
      intro k hk
      split
      next hlt => exact hin k hlt
      next hge =>
        rw [hout _ (by omega)]
        exact h.clear j (le_refl j) hi htype k hk
    · intro k hk
      rw [hother j (by omega) heq htype k hk]
      exact h.placed j (by omega) htype k hk
  · intro j hlo hhi htype k hk
    rw [hother j hhi (by omega) htype k hk]
    exact h.clear j (by omega) hhi htype k hk

/-- The copy of one segment stays within the file and within the range. -/
theorem copyMem_spec (h : FileAt base content m.mem) {range : KernelRange} {ph : KernelPhdr}
    (hplace : SegmentPlace content.length range ph) (hpos : 0 < ph.filesz)
    (hapart : ApartFrom base content.length range.lo range.hi) :
    Eff.Post (copyMem ph.paddr (add64 base ph.offset) ph.filesz) m (fun r m' => r = .ok () ∧
      Placing base content range.lo range.hi m m' ∧
      (∀ k < ph.filesz, m'.mem (ph.paddr + k) = (content[ph.offset + k]?).getD 0) ∧
      ∀ a, ¬(ph.paddr ≤ a ∧ a < ph.paddr + ph.filesz) → m'.mem a = m.mem a) := by
  have hfits := h.fits
  have hsize := h.size
  have hfilesz := hplace.filesz
  have hinside := hplace.inside
  have hlower := hplace.lower
  have hupper := hplace.upper
  refine Eff.post_of_eq rfl ⟨rfl, ⟨?_, rfl, ⟨_, rfl, ?_⟩, ⟨_, rfl, ?_⟩⟩, ?_, fun a ha => if_neg ha⟩
  · refine h.congr (fun a hlo hhi => if_neg ?_)
    rintro ⟨hge, hlt⟩
    exact hapart a (by omega) (by omega) ⟨hlo, hhi⟩
  · intro r hr
    rw [List.mem_singleton.mp hr]
    unfold InRange
    dsimp only
    rw [add64_eq (by omega)]
    omega
  · intro w hw
    rw [List.mem_singleton.mp hw]
    exact ⟨hlower, by dsimp only; omega⟩
  · intro k hk
    dsimp only
    rw [if_pos (by omega), add64_eq (by omega), Nat.add_sub_cancel_left, Nat.add_assoc,
      h.bytes (ph.offset + k) (by omega), List.getElem?_eq_getElem (by omega)]
    rfl

theorem copyKernelSegments_spec (h : FileAt base content m.mem) (hfit : HeadersFit content)
    {range : KernelRange} (hall : AllPlaced content range)
    (hapart : ApartFrom base content.length range.lo range.hi) (fuel i : Nat)
    (hfuel : (kernelHeader content).phnum ≤ i + fuel) :
    Eff.Post (copyKernelSegments base fuel i) m (fun r m' => r = .ok () ∧
      Placing base content range.lo range.hi m m' ∧
      ((kernelPhdrs content).Pairwise Apart → i ≤ (kernelHeader content).phnum →
        FilledTo content m.mem i → FilledTo content m'.mem (kernelHeader content).phnum)) := by
  induction fuel generalizing m i with
  | zero =>
      refine Eff.post_of_eq rfl ⟨rfl, Placing.of_read h (OnlyRead.refl m), fun _ hle hfilled => ?_⟩
      have heq : i = (kernelHeader content).phnum := by omega
      rw [← heq]
      exact hfilled
  | succ fuel ih =>
      refine Eff.post_bind (headerAt_file h hfit.header) (fun _ _ hcon => nomatch hcon.1) ?_
      rintro hdr m₁ ⟨hhdr, hread₁⟩
      rw [Except.ok.inj hhdr]
      have hfile₁ : FileAt base content m₁.mem := by
        rw [hread₁.mem]
        exact h
      by_cases hi : i < (kernelHeader content).phnum
      · rw [if_pos hi]
        refine Eff.post_bind (phdrAt_file hfile₁ hfit hi) (fun _ _ hcon => nomatch hcon.1) ?_
        rintro ph m₂ ⟨hph, hread₂⟩
        rw [Except.ok.inj hph]
        have hfile₂ : FileAt base content m₂.mem := by
          rw [hread₂.mem]
          exact hfile₁
        have hread : Placing base content range.lo range.hi m m₂ :=
          Placing.of_read h (hread₁.trans hread₂)
        have hmem : m₂.mem = m.mem := hread₂.mem.trans hread₁.mem
        by_cases hskip : (kernelPhdr content i).type ≠ ptLoad ∨ (kernelPhdr content i).filesz = 0
        · rw [if_pos hskip]
          refine Eff.post_mono (ih hfile₂ (i + 1) (by omega)) ?_
          rintro r m₃ ⟨hr, hplacing, hfill⟩
          refine ⟨hr, hread.trans hplacing, fun hpairs _ hfilled => ?_⟩
          rw [hmem] at hfill
          exact hfill hpairs hi (hfilled.skip hi hskip)
        · rw [if_neg hskip]
          rw [not_or, not_not] at hskip
          have hplace := hall i hi hskip.1
          refine Eff.post_bind (copyMem_spec hfile₂ hplace (by omega) hapart)
            (fun _ _ hcon => nomatch hcon.1) ?_
          rintro _ m₃ ⟨-, hcopy, hin, hout⟩
          refine Eff.post_mono (ih hcopy.file (i + 1) (by omega)) ?_
          rintro r m₄ ⟨hr, hplacing, hfill⟩
          refine ⟨hr, (hread.trans hcopy).trans hplacing, fun hpairs _ hfilled => ?_⟩
          rw [hmem] at hout
          exact hfill hpairs hi (hfilled.copy hi hskip.1 hplace.filesz hpairs hin hout)
      · rw [if_neg hi]
        refine Eff.post_of_eq rfl ⟨rfl, Placing.of_read h hread₁, fun _ hle hfilled => ?_⟩
        have heq : i = (kernelHeader content).phnum := by omega
        rw [hread₁.mem, ← heq]
        exact hfilled

/-! ## The whole loader -/

/-- What a run has read and written. -/
structure Confined (base size : Nat) (m : Machine) : Prop where
  reads : ∀ r ∈ m.reads, InRange base (base + size) r
  writes : (m.writes = [] ∧ m.allocated = []) ∨ ∃ lo pages, m.allocated = [(lo, pages)] ∧
    alignDown kernelMinAddr nytbPageSize ≤ lo ∧ lo + pages * nytbPageSize ≤ kernelMaxAddr ∧
    ∀ w ∈ m.writes, InRange lo (lo + pages * nytbPageSize) w

/-- A kernel is in memory. -/
structure KernelLoaded (content : List UInt8) (mem : Nat → UInt8) (entry : Nat) : Prop where
  segments : (kernelPhdrs content).Pairwise Apart →
    ∀ ph ∈ kernelPhdrs content, ph.type = ptLoad → KernelPlaced content mem ph
  entry_eq : entry = (kernelHeader content).entry
  entryIn : ∃ ph ∈ kernelPhdrs content, EntryIn entry ph

theorem mem_kernelPhdrs {ph : KernelPhdr} :
    ph ∈ kernelPhdrs content ↔ ∃ j < (kernelHeader content).phnum, kernelPhdr content j = ph := by
  unfold kernelPhdrs
  rw [List.mem_map]
  constructor
  · rintro ⟨j, hj, heq⟩
    exact ⟨j, List.mem_range.mp hj, heq⟩
  · rintro ⟨j, hj, heq⟩
    exact ⟨j, List.mem_range.mpr hj, heq⟩

/-- The memory of a range is cleared. -/
theorem setMem_spec (h : FileAt base content m.mem) {len : Nat}
    (hapart : ApartFrom base content.length lo (lo + len)) :
    Eff.Post (setMem lo len 0) m (fun r m' => r = .ok () ∧
      Placing base content lo (lo + len) m m' ∧
      ∀ a, lo ≤ a → a < lo + len → m'.mem a = 0) := by
  refine Eff.post_of_eq rfl ⟨rfl, ⟨?_, rfl, ⟨[], (List.append_nil _).symm, nofun⟩, ⟨_, rfl, ?_⟩⟩,
    fun a hlo hhi => if_pos ⟨hlo, hhi⟩⟩
  · exact h.congr (fun a hlo hhi => if_neg (fun hin => hapart a hin.1 hin.2 ⟨hlo, hhi⟩))
  · intro w hw
    rw [List.mem_singleton.mp hw]
    exact ⟨le_refl lo, le_refl _⟩

/-- The part behind the first pass, from a machine on which only reads have happened. -/
theorem placeKernel_spec {fw : Firmware} (hfw : Reserves fw base content.length)
    (h : FileAt base content m.mem) (hfit : HeadersFit content) {range : KernelRange}
    (hok : RangeOk range) (hall : AllPlaced content range)
    (hentry : range.entryOk = true →
      ∃ j < (kernelHeader content).phnum, EntryIn (kernelHeader content).entry (kernelPhdr content j))
    (hreads : ∀ r ∈ m.reads, InRange base (base + content.length) r) (hwrites : m.writes = [])
    (halloc : m.allocated = []) :
    Eff.Post (placeKernel fw base range) m (fun r m' => Confined base content.length m' ∧
      ∀ entry, r = .ok entry → KernelLoaded content m'.mem entry) := by
  have hmax : kernelMaxAddr = 0x40000000 := rfl
  have hsize : nytbPageSize = 4096 := rfl
  unfold placeKernel
  split
  next => exact Eff.post_of_eq rfl ⟨⟨hreads, Or.inl ⟨hwrites, halloc⟩⟩, nofun⟩
  next hcond =>
  rw [not_or, not_or, Bool.not_eq_false, Nat.not_le] at hcond
  obtain ⟨-, hentryOk, hlt⟩ := hcond
  have hupper := hok.upper
  have hmul : (range.hi - range.lo) / nytbPageSize * nytbPageSize = range.hi - range.lo := by
    have hlo : range.lo % nytbPageSize = 0 := hok.lo_aligned.resolve_left (by omega)
    have hhi := hok.hi_aligned
    rw [hsize] at hlo hhi ⊢
    omega
  have hend : range.lo + (range.hi - range.lo) = range.hi := by omega
  rw [sub64_eq (by omega) (by omega)]
  have hkept := hfw.kept ((range.hi - range.lo) / nytbPageSize) range.lo m.mem
  have hfresh := hfw.apart ((range.hi - range.lo) / nytbPageSize) range.lo m.mem
  cases hrun : fw ((range.hi - range.lo) / nytbPageSize) range.lo m.mem with
  | mk out mem =>
      rw [hrun] at hkept hfresh
      have hfile := h.congr hkept
      cases out with
      | error e =>
          have hfail : allocatePages fw ((range.hi - range.lo) / nytbPageSize) range.lo m =
              (.error e, { m with mem := mem }) := by
            simp only [allocatePages, hrun]
          exact Eff.post_bind_error hfail ⟨⟨hreads, Or.inl ⟨hwrites, halloc⟩⟩, nofun⟩
      | ok u =>
          have hpages : allocatePages fw ((range.hi - range.lo) / nytbPageSize) range.lo m =
              (.ok (), { m with
                mem := mem
                allocated := m.allocated ++ [(range.lo, (range.hi - range.lo) / nytbPageSize)] }) := by
            simp only [allocatePages, hrun]
          have hapart : ApartFrom base content.length range.lo range.hi := by
            intro a hlo hhi
            refine hfresh rfl a hlo ?_
            rw [hmul, hend]
            exact hhi
          refine Eff.post_bind_ok hpages ?_
          refine Eff.post_bind (setMem_spec hfile (by rw [hend]; exact hapart))
            (fun _ _ hcon => nomatch hcon.1) ?_
          rw [hend]
          rintro _ m₁ ⟨-, hset, hclear⟩
          have hphnum := hfit.phnum
          have hcount : elfMaxPhnum = 32 := rfl
          refine Eff.post_bind (copyKernelSegments_spec hset.file hfit hall hapart (2 ^ 16) 0
            (by omega)) (fun _ _ hcon => nomatch hcon.1) ?_
          rintro _ m₂ ⟨-, hcopy, hfill⟩
          refine Eff.post_bind (headerAt_file hcopy.file hfit.header)
            (fun _ _ hcon => nomatch hcon.1) ?_
          rintro hdr m₃ ⟨hhdr, hread⟩
          rw [Except.ok.inj hhdr]
          have hplacing := (hset.trans hcopy).trans (Placing.of_read hcopy.file hread)
          refine Eff.post_of_eq rfl ⟨⟨?_, Or.inr ⟨range.lo, (range.hi - range.lo) / nytbPageSize,
            ?_, hok.lower, ?_, ?_⟩⟩, ?_⟩
          · obtain ⟨more, hmore, hin⟩ := hplacing.reads
            intro r hr
            rw [hmore] at hr
            rcases List.mem_append.mp hr with hr | hr
            · exact hreads r hr
            · exact hin r hr
          · rw [hplacing.allocated, halloc]
            rfl
          · rw [hmul, hend]
            exact hupper
          · obtain ⟨more, hmore, hin⟩ := hplacing.writes
            intro w hw
            rw [hmore, hwrites] at hw
            rw [hmul, hend]
            exact hin w hw
          · intro entry hr
            rw [← Except.ok.inj hr]
            obtain ⟨j, hj, hholds⟩ := hentry hentryOk
            refine ⟨fun hpairs ph hph htype => ?_, rfl,
              ⟨kernelPhdr content j, mem_kernelPhdrs.mpr ⟨j, hj, rfl⟩, hholds⟩⟩
            obtain ⟨k, hk, rfl⟩ := mem_kernelPhdrs.mp hph
            have hstart : FilledTo content m₁.mem 0 := by
              refine ⟨fun _ hcon => absurd hcon (Nat.not_lt_zero _), ?_⟩
              intro j' _ hj' htype' k' hk'
              have hin := hall j' hj' htype'
              have hlower := hin.lower
              have hupper' := hin.upper
              exact hclear _ (by omega) (by omega)
            rw [hread.mem]
            exact (hfill hpairs (Nat.zero_le _) hstart).placed k hk htype

/-- The bootloader's loader is faithful and safe.  Whatever a kernel file holds, the loader reads
only bytes of the file and writes only to the pages that the firmware has given it, which lie where
a kernel may lie.  If it succeeds, every segment of a kernel whose segments do not overlap has the
bytes of the file followed by zeros, and the entry point lies in a segment that may be run and
whose virtual and physical addresses coincide. -/
theorem kernel_elf_faithful {fw : Firmware} {base : Nat} {content : List UInt8}
    {mem : Nat → UInt8} (hfw : Reserves fw base content.length) (hfile : FileAt base content mem) :
    Eff.Post (loadElfKernel fw base content.length)
      { mem := mem, reads := [], writes := [], allocated := [] }
      (fun r m => Confined base content.length m ∧
        ∀ entry, r = .ok entry → KernelLoaded content m.mem entry) := by
  have hnothing : ∀ {m : Machine},
      OnlyRead base content { mem := mem, reads := [], writes := [], allocated := [] } m →
      (∀ r ∈ m.reads, InRange base (base + content.length) r) ∧ m.writes = [] ∧ m.allocated = [] := by
    intro m hread
    obtain ⟨more, hmore, hin⟩ := hread.reads
    refine ⟨fun r hr => ?_, hread.writes, hread.allocated⟩
    rw [hmore] at hr
    exact hin r hr
  have hstop : ∀ {m : Machine} {e : EfiStatus},
      OnlyRead base content { mem := mem, reads := [], writes := [], allocated := [] } m →
      Confined base content.length m ∧
        ∀ entry, (.error e : Except EfiStatus Nat) = .ok entry → KernelLoaded content m.mem entry := by
    intro m e hread
    obtain ⟨hreads, hwrites, halloc⟩ := hnothing hread
    exact ⟨⟨hreads, Or.inl ⟨hwrites, halloc⟩⟩, nofun⟩
  have hsize := hfile.size
  unfold loadElfKernel
  split
  next => exact Eff.post_of_eq rfl (hstop (OnlyRead.refl _))
  next hlen =>
  rw [Nat.not_lt] at hlen
  refine Eff.post_bind (headerAt_file hfile hlen) (fun _ _ hcon => nomatch hcon.1) ?_
  rintro hdr m₁ ⟨hhdr, hread⟩
  rw [Except.ok.inj hhdr]
  split
  next => exact Eff.post_of_eq rfl (hstop hread)
  split
  next => exact Eff.post_of_eq rfl (hstop hread)
  next hcount =>
  split
  next => exact Eff.post_of_eq rfl (hstop hread)
  next htable =>
  rw [not_or, not_or, not_not] at hcount
  obtain ⟨hentsize, -, hphnum⟩ := hcount
  have hphsize : elfPhdrSize = 56 := rfl
  have hmaxnum : elfMaxPhnum = 32 := rfl
  have hmul : mul64 (kernelHeader content).phnum (kernelHeader content).phentsize =
      (kernelHeader content).phnum * elfPhdrSize := by
    rw [mul64, hentsize]
    exact Nat.mod_eq_of_lt (by rw [hphsize]; omega)
  rw [not_or, hmul, Nat.not_lt] at htable
  rw [sub64_eq (by omega) hsize] at htable
  have hfit : HeadersFit content := ⟨hlen, by omega, by omega⟩
  have hfile₁ : FileAt base content m₁.mem := by
    rw [hread.mem]
    exact hfile
  refine Eff.post_bind (checkKernelSegments_spec hfile₁ hfit (kernelHeader content).phnum 0
    (by omega) _) ?_ ?_
  · rintro e m₂ ⟨hread', -⟩
    exact hstop (hread.trans hread')
  · rintro range m₂ ⟨hread', hpassed⟩
    have hpass := hpassed range rfl
    obtain ⟨hreads, hwrites, halloc⟩ := hnothing (hread.trans hread')
    have hfile₂ : FileAt base content m₂.mem := by
      rw [hread'.mem]
      exact hfile₁
    refine placeKernel_spec hfw hfile₂ hfit (hpass.ok ⟨by decide, by decide, Or.inl rfl, rfl⟩)
      (fun j hj htype => hpass.segments j (Nat.zero_le j) (by omega) htype) (fun hentry => ?_)
      hreads hwrites halloc
    rcases hpass.entry hentry with hcon | ⟨j, hj, hin⟩
    · cases hcon
    · exact ⟨j, by omega, hin⟩

/-! ## A small kernel -/

/-- A kernel of three bytes of code at the lowest address for kernels. -/
def smallKernel : List UInt8 :=
  Bytes.pack [(4, elfMagic), (1, elfClass64), (1, elfData2Lsb), (10, 0), (2, etExec), (2, emX8664),
    (4, 1), (8, 0x100000), (8, 64), (8, 0), (4, 0), (2, 64), (2, 56), (2, 1), (2, 0), (2, 0), (2, 0),
    (4, ptLoad), (4, pfX), (8, 120), (8, 0x100000), (8, 0x100000), (8, 3), (8, 16), (8, 4096)] ++
    [0x90, 0x90, 0xF4]

/-- Memory with a file at 2 MiB. -/
def smallMem (content : List UInt8) (a : Nat) : UInt8 :=
  if 0x200000 ≤ a then (content[a - 0x200000]?).getD 0xFF else 0xFF

/-- A firmware whose free pages are those below 2 MiB. -/
def smallFirmware : Firmware :=
  fun pages addr mem =>
    if addr + pages * nytbPageSize ≤ 0x200000 then (.ok (), mem) else (.error .notFound, mem)

/-- The run of the loader on the small kernel. -/
def smallBoot : Except EfiStatus Nat × Machine :=
  loadElfKernel smallFirmware 0x200000 smallKernel.length
    { mem := smallMem smallKernel, reads := [], writes := [], allocated := [] }

theorem fileAt_smallMem {content : List UInt8} (h : content.length < 2 ^ 32) :
    FileAt 0x200000 content (smallMem content) where
  size := by omega
  fits := by omega
  bytes i hi := by
    rw [smallMem, if_pos (by omega), Nat.add_sub_cancel_left, List.getElem?_eq_getElem hi]
    rfl

theorem reserves_smallFirmware (size : Nat) : Reserves smallFirmware 0x200000 size where
  kept pages addr mem a _ _ := by
    unfold smallFirmware
    split <;> rfl
  apart pages addr mem h a _ hlt hin := by
    unfold smallFirmware at h
    split at h
    · omega
    · cases h

theorem kernel_elf_faithful_small :
    smallBoot.1 = .ok 0x100000 ∧ Confined 0x200000 smallKernel.length smallBoot.2 ∧
      KernelLoaded smallKernel smallBoot.2.mem 0x100000 := by
  have hok : smallBoot.1 = .ok 0x100000 := by decide +kernel
  have hpost := kernel_elf_faithful (reserves_smallFirmware smallKernel.length)
    (fileAt_smallMem (by decide +kernel))
  unfold Eff.Post at hpost
  rw [← smallBoot] at hpost
  obtain ⟨hconf, hloaded⟩ := hpost
  exact ⟨hok, hconf, hloaded _ hok⟩

end Bootloader
end Nyxis
