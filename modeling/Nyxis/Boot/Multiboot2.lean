import Nyxis.Status
import Nyxis.Lib.Bytes
import Nyxis.Lib.ByteMap

/-!
# Multiboot2 information

The conversion of a Multiboot2 information block to the boot information of the kernel in
{lit}`kernel/boot/multiboot2.c`.  The block is read from physical memory, and the
computation records every byte it reads, every memory-map tag it starts on and every
descriptor it writes, so that its accesses can be spoken about.  A pointer is an address,
zero for none.

Main results:

- Theorem {lit}`convertMmap_post`: a memory-map tag is read inside its bounds and written
  inside the buffer.
- Theorem {lit}`tagLoop_post`: the loop over the tags ends and stays inside the block.
- Theorem {lit}`multiboot2_inside`: the whole conversion.
-/

namespace Nyxis
namespace Boot

open Bytes

/-! ## Data -/

def mb2TagEnd : Nat := 0
def mb2TagModule : Nat := 3
def mb2TagMmap : Nat := 6
def mb2TagFramebuf : Nat := 8
def mb2TagAcpiOld : Nat := 14
def mb2TagAcpiNew : Nat := 15

def mb2MemAvailable : Nat := 1
def mb2MemAcpi : Nat := 3
def mb2MemNvs : Nat := 4
def mb2MemBad : Nat := 5

def mb2MinRsdpSize : Nat := 20
def mb2MaxInfoSize : Nat := 2 ^ 20

def ntbliMemReserved : Nat := 0
def ntbliMemConventional : Nat := 7
def ntbliMemUnusable : Nat := 8
def ntbliMemAcpiReclaim : Nat := 9
def ntbliMemAcpiNvs : Nat := 10

def ntbliMagic : Nat := 0x4942544E
def ntbliVersion : Nat := 2
def ntbliSize : Nat := 112
def ntbliPageSize : Nat := 4096

def ntbliPixelRgb : Nat := 0
def ntbliPixelBgr : Nat := 1
def ntbliPixelBitmask : Nat := 2
def ntbliPixelBltonly : Nat := 3

/-- {lit}`ntbli_memdesc_t`. -/
structure MemDesc where
  type : Nat
  pad : Nat
  physStart : Nat
  virtStart : Nat
  numPages : Nat
  attributes : Nat
deriving DecidableEq

/-- The size of {lit}`ntbli_memdesc_t`. -/
def memDescSize : Nat := 40

/-- {lit}`NTBLI`. -/
structure Ntbli where
  magic : Nat
  version : Nat
  size : Nat
  memorySize : Nat
  initrdBase : Nat
  initrdSize : Nat
  framebufferBase : Nat
  framebufferSize : Nat
  width : Nat
  height : Nat
  pixelsPerScanLine : Nat
  pixelFormat : Nat
  memmapBase : Nat
  memmapSize : Nat
  memmapDescSize : Nat
  memmapDescVersion : Nat
  rsdp : Nat
deriving DecidableEq

/-- The information that the conversion starts from. -/
def Ntbli.start : Ntbli where
  magic := ntbliMagic
  version := ntbliVersion
  size := ntbliSize
  memorySize := 0
  initrdBase := 0
  initrdSize := 0
  framebufferBase := 0
  framebufferSize := 0
  width := 0
  height := 0
  pixelsPerScanLine := 0
  pixelFormat := ntbliPixelBltonly
  memmapBase := 0
  memmapSize := 0
  memmapDescSize := 0
  memmapDescVersion := 0
  rsdp := 0

/-- What the conversion does to memory: a byte is read, a memory-map tag is started on, a
descriptor of the output buffer is written. -/
inductive Access
  | read (addr : Nat)
  | memmapTag
  | write (index : Nat)
deriving DecidableEq

/-- The output so far, and all accesses, the latest first. -/
structure Parse where
  out : Ntbli
  memmap : Nat → MemDesc
  trace : List Access

abbrev ParseM := Eff Stop Parse

/-! ## Reading -/

/-- The record of bytes that have been read. -/
def Parse.logged (s : Parse) (p width : Nat) : Parse :=
  { s with trace := (List.range' p width).map Access.read ++ s.trace }

/-- Read a little-endian number. -/
def rd (mem : Nat → UInt8) (width p : Nat) : ParseM Nat := do
  Eff.modify (fun s => s.logged p width)
  pure (leNat (bytesAt mem p width))

/-- {lit}`rd32`. -/
def rd32 (mem : Nat → UInt8) (p : Nat) : ParseM Nat :=
  rd mem 4 p

/-- {lit}`rd64`. -/
def rd64 (mem : Nat → UInt8) (p : Nat) : ParseM Nat :=
  rd mem 8 p

/-- Read one byte of a tag. -/
def rd8 (mem : Nat → UInt8) (p : Nat) : ParseM Nat :=
  rd mem 1 p

/-- Change the information. -/
def setOut (f : Ntbli → Ntbli) : ParseM Unit :=
  Eff.modify (fun s => { s with out := f s.out })

/-- Write a descriptor of the output buffer. -/
def putDesc (index : Nat) (desc : MemDesc) : ParseM Unit :=
  Eff.modify (fun s => { s with
    memmap := Function.update s.memmap index desc
    trace := .write index :: s.trace })

/-! ## The memory map -/

/-- {lit}`map_memory_type`. -/
def mapMemoryType (mb2Type : Nat) : Nat :=
  if mb2Type = mb2MemAvailable then ntbliMemConventional
  else if mb2Type = mb2MemAcpi then ntbliMemAcpiReclaim
  else if mb2Type = mb2MemNvs then ntbliMemAcpiNvs
  else if mb2Type = mb2MemBad then ntbliMemUnusable
  else ntbliMemReserved

/-- Round down to a page. -/
def pageDown (n : Nat) : Nat :=
  n / ntbliPageSize * ntbliPageSize

/-- Round up to a page, in 64-bit arithmetic. -/
def pageUp (n : Nat) : Nat :=
  pageDown ((n + (ntbliPageSize - 1)) % 2 ^ 64)

/-- The range that an entry stands for, unless it is skipped: usable memory is rounded
inwards, other memory outwards. -/
def entryRange (type base len : Nat) : Option (Nat × Nat) :=
  if len = 0 ∨ (base + len) % 2 ^ 64 < base then
    none
  else
    let stop := (base + len) % 2 ^ 64
    if type = ntbliMemConventional then
      if pageDown stop ≤ pageUp base then none else some (pageUp base, pageDown stop)
    else
      if pageUp stop < pageDown base then none else some (pageDown base, pageUp stop)

/-- The loop of {lit}`convert_mmap`: the number of descriptors in use. -/
def convertEntries (mem : Nat → UInt8) (tag entrySize capEntries : Nat) :
    (n i used : Nat) → ParseM Nat
  | 0, _, used => pure used
  | n + 1, i, used => do
      let base ← rd64 mem (tag + 16 + i * entrySize)
      let len ← rd64 mem (tag + 16 + i * entrySize + 8)
      let mb2Type ← rd32 mem (tag + 16 + i * entrySize + 16)
      let type := mapMemoryType mb2Type
      match entryRange type base len with
      | none => convertEntries mem tag entrySize capEntries n (i + 1) used
      | some (start, stop) =>
          if capEntries ≤ used then
            pure used
          else do
            putDesc used ⟨type, 0, start, 0, (stop - start) / ntbliPageSize, 0⟩
            setOut (fun out =>
              if (type = ntbliMemConventional ∨ type = ntbliMemAcpiReclaim ∨
                  type = ntbliMemAcpiNvs) ∧ out.memorySize < stop then
                { out with memorySize := stop }
              else
                out)
            convertEntries mem tag entrySize capEntries n (i + 1) (used + 1)

/-- {lit}`convert_mmap`. -/
def convertMmap (mem : Nat → UInt8) (tag tagSize capEntries : Nat) : ParseM Nat := do
  Eff.modify (fun s => { s with trace := .memmapTag :: s.trace })
  if tagSize < 16 then
    failWith .NinvalidFormat
  else
    let entrySize ← rd32 mem (tag + 8)
    if entrySize < 24 then
      failWith .NinvalidFormat
    else
      convertEntries mem tag entrySize capEntries ((tagSize - 16) / entrySize) 0 0

/-! ## The other tags -/

/-- {lit}`convert_framebuffer`. -/
def convertFramebuffer (mem : Nat → UInt8) (tag tagSize : Nat) : ParseM Unit := do
  if tagSize < 38 then
    pure ()
  else
    let addr ← rd64 mem (tag + 8)
    let pitch ← rd32 mem (tag + 16)
    let width ← rd32 mem (tag + 20)
    let height ← rd32 mem (tag + 24)
    let bpp ← rd8 mem (tag + 28)
    let fbtype ← rd8 mem (tag + 29)
    let redPos ← rd8 mem (tag + 32)
    let greenPos ← rd8 mem (tag + 34)
    let bluePos ← rd8 mem (tag + 36)
    if fbtype ≠ 1 ∨ bpp ≠ 32 ∨ addr = 0 ∨ width = 0 ∨ height = 0 then
      pure ()
    else if pitch % 4 ≠ 0 ∨ pitch < width * 4 % 2 ^ 32 then
      pure ()
    else
      setOut (fun out => { out with
        framebufferBase := addr
        framebufferSize := pitch * height
        width := width
        height := height
        pixelsPerScanLine := pitch / 4
        pixelFormat :=
          if redPos = 16 ∧ greenPos = 8 ∧ bluePos = 0 then ntbliPixelBgr
          else if redPos = 0 ∧ greenPos = 8 ∧ bluePos = 16 then ntbliPixelRgb
          else ntbliPixelBitmask })

/-- The module tag: the first module becomes the initial ramdisk. -/
def convertModule (mem : Nat → UInt8) (tag size : Nat) : ParseM Unit := do
  let out ← Eff.gets Parse.out
  if 16 ≤ size ∧ out.initrdBase = 0 then
    let mstart ← rd32 mem (tag + 8)
    let mend ← rd32 mem (tag + 12)
    if mstart < mend then
      setOut (fun out => { out with initrdBase := mstart, initrdSize := mend - mstart })
    else
      pure ()
  else
    pure ()

/-- The arm of the switch for one tag: whether a new-style root pointer has been seen. -/
def convertTag (mem : Nat → UInt8) (memmapBuf memmapCap tag type size : Nat)
    (haveRsdpNew : Bool) : ParseM Bool := do
  if type = mb2TagModule then
    convertModule mem tag size
    pure haveRsdpNew
  else if type = mb2TagMmap then
    match ← attemptStatus (convertMmap mem tag size (memmapCap / memDescSize)) with
    | .error _ => failWith .NinvalidFormat
    | .ok count =>
        setOut (fun out => { out with
          memmapBase := memmapBuf
          memmapSize := count * memDescSize
          memmapDescSize := memDescSize
          memmapDescVersion := 1 })
        pure haveRsdpNew
  else if type = mb2TagFramebuf then
    convertFramebuffer mem tag size
    pure haveRsdpNew
  else if type = mb2TagAcpiNew then
    if 8 + mb2MinRsdpSize ≤ size then
      setOut (fun out => { out with rsdp := tag + 8 })
      pure true
    else
      pure haveRsdpNew
  else if type = mb2TagAcpiOld then
    if haveRsdpNew = false ∧ 8 + mb2MinRsdpSize ≤ size then
      setOut (fun out => { out with rsdp := tag + 8 })
      pure haveRsdpNew
    else
      pure haveRsdpNew
  else
    pure haveRsdpNew

/-- The loop over the tags. -/
def tagLoop (mem : Nat → UInt8) (mbi total memmapBuf memmapCap : Nat) :
    (fuel off : Nat) → (haveRsdpNew : Bool) → ParseM Unit
  | 0, _, _ => Eff.fail .hang
  | fuel + 1, off, haveRsdpNew => do
      if (off + 8) % 2 ^ 32 ≤ total then
        let type ← rd32 mem (mbi + off)
        let size ← rd32 mem (mbi + off + 4)
        if type = mb2TagEnd then
          pure ()
        else if size < 8 ∨ total - off < size then
          failWith .NinvalidFormat
        else
          let haveRsdpNew' ←
            convertTag mem memmapBuf memmapCap (mbi + off) type size haveRsdpNew
          tagLoop mem mbi total memmapBuf memmapCap fuel
            ((off + (size + 7) % 2 ^ 32 / 8 * 8) % 2 ^ 32) haveRsdpNew'
      else
        pure ()

/-- {lit}`multiboot2_to_ntbli`. -/
def multiboot2ToNtbli (mem : Nat → UInt8) (mbi memmapBuf memmapCap : Nat) : ParseM Unit := do
  if memmapBuf = 0 then
    failWith .NinvalidArg
  else if mbi = 0 ∨ mbi % 8 ≠ 0 ∨ 2 ^ 32 ≤ mbi then
    failWith .NinvalidPointer
  else
    let total ← rd32 mem mbi
    if total < 16 ∨ mb2MaxInfoSize < total ∨ 2 ^ 32 < mbi + total then
      failWith .NinvalidFormat
    else
      setOut (fun _ => Ntbli.start)
      tagLoop mem mbi total memmapBuf memmapCap total 8 false
      let out ← Eff.gets Parse.out
      if out.memmapBase = 0 ∨ out.memorySize = 0 then
        failWith .NinvalidFormat
      else
        pure ()

/-! ## Accesses -/

/-- The number of descriptors written since the last memory-map tag. -/
def writesOf : List Access → Nat
  | [] => 0
  | .memmapTag :: _ => 0
  | .write _ :: trace => writesOf trace + 1
  | .read _ :: trace => writesOf trace

theorem writesOf_reads (addrs : List Nat) (trace : List Access) :
    writesOf (addrs.map Access.read ++ trace) = writesOf trace := by
  induction addrs with
  | nil => rfl
  | cons a addrs ih => exact ih

/-- All reads so far lie in a range, all writes in the buffer, and the root pointer names
twenty bytes of the range. -/
structure Inside (lo hi cap : Nat) (s : Parse) : Prop where
  reads : ∀ a, .read a ∈ s.trace → lo ≤ a ∧ a < hi
  writes : ∀ i, .write i ∈ s.trace → i < cap
  rsdp : s.out.rsdp ≠ 0 → lo ≤ s.out.rsdp ∧ s.out.rsdp + mb2MinRsdpSize ≤ hi

/-- The reported size is that of the descriptors of the last memory-map tag. -/
def SizeOk (s : Parse) : Prop :=
  s.out.memmapBase ≠ 0 → s.out.memmapSize = writesOf s.trace * memDescSize

variable {mem : Nat → UInt8} {lo hi cap : Nat} {s : Parse}

theorem Inside.logged (h : Inside lo hi cap s) {p w : Nat} (hlo : lo ≤ p)
    (hhi : p + w ≤ hi) : Inside lo hi cap (s.logged p w) where
  reads a ha := by
    rcases List.mem_append.mp ha with ha | ha
    · obtain ⟨b, hb, heq⟩ := List.mem_map.mp ha
      cases heq
      rw [List.mem_range'_1] at hb
      omega
    · exact h.reads a ha
  writes i hi := by
    rcases List.mem_append.mp hi with hi | hi
    · obtain ⟨b, -, heq⟩ := List.mem_map.mp hi
      cases heq
    · exact h.writes i hi
  rsdp := h.rsdp

theorem SizeOk.logged (h : SizeOk s) (p width : Nat) : SizeOk (s.logged p width) := by
  intro hbase
  have hsize : s.out.memmapSize = writesOf s.trace * memDescSize := h hbase
  change s.out.memmapSize = writesOf (_ ++ s.trace) * memDescSize
  rw [writesOf_reads, hsize]

/-- A change of the information that keeps the root pointer. -/
theorem Inside.setOut (h : Inside lo hi cap s) {f : Ntbli → Ntbli}
    (hf : (f s.out).rsdp = s.out.rsdp) : Inside lo hi cap { s with out := f s.out } where
  reads := h.reads
  writes := h.writes
  rsdp := by
    dsimp only
    rw [hf]
    exact h.rsdp

theorem Inside.putDesc (h : Inside lo hi cap s) {i : Nat} (hroom : i < cap) (desc : MemDesc) :
    Inside lo hi cap { s with
      memmap := Function.update s.memmap i desc, trace := .write i :: s.trace } where
  reads a ha := by
    rcases List.mem_cons.mp ha with ha | ha
    · cases ha
    · exact h.reads a ha
  writes j hj := by
    rcases List.mem_cons.mp hj with hj | hj
    · cases hj
      exact hroom
    · exact h.writes j hj
  rsdp := h.rsdp

/-! ## The parts of the conversion -/

theorem leNat_bytesAt_lt (p width : Nat) : leNat (bytesAt mem p width) < 256 ^ width := by
  have := leNat_lt (bytesAt mem p width)
  rwa [length_bytesAt] at this

/-- The entries of a memory map are read inside the tag, and the descriptors are written
inside the buffer. -/
theorem convertEntries_post {tag entrySize n i used : Nat} (h : Inside lo hi cap s)
    (hlo : lo ≤ tag) (hhi : tag + 16 + (i + n) * entrySize ≤ hi) (hsize : 24 ≤ entrySize)
    (hused : used ≤ cap) (hcount : writesOf s.trace = used) :
    Eff.Post (convertEntries mem tag entrySize cap n i used) s (fun r s' =>
      ∃ count, r = .ok count ∧ Inside lo hi cap s' ∧ writesOf s'.trace = count) := by
  induction n generalizing i used s with
  | zero => exact Eff.post_of_eq rfl ⟨used, rfl, h, hcount⟩
  | succ n ih =>
      have hentry : tag + 16 + i * entrySize + entrySize ≤ hi := by
        have hmono : (i + 1) * entrySize ≤ (i + (n + 1)) * entrySize :=
          Nat.mul_le_mul_right _ (by omega)
        rw [Nat.succ_mul] at hmono
        omega
      have hrest : tag + 16 + (i + 1 + n) * entrySize ≤ hi := by
        have heq : i + 1 + n = i + (n + 1) := by omega
        rw [heq]
        exact hhi
      refine Eff.post_bind_ok rfl (Eff.post_bind_ok rfl (Eff.post_bind_ok rfl ?_))
      have h₁ : Inside lo hi cap (s.logged (tag + 16 + i * entrySize) 8) :=
        h.logged (by omega) (by omega)
      have h₂ := h₁.logged (p := tag + 16 + i * entrySize + 8) (w := 8) (by omega) (by omega)
      have h₃ := h₂.logged (p := tag + 16 + i * entrySize + 16) (w := 4) (by omega) (by omega)
      have hcount₃ : writesOf (((s.logged (tag + 16 + i * entrySize) 8).logged
          (tag + 16 + i * entrySize + 8) 8).logged (tag + 16 + i * entrySize + 16) 4).trace =
          used := by
        rw [Parse.logged, writesOf_reads, Parse.logged, writesOf_reads, Parse.logged,
          writesOf_reads, hcount]
      dsimp only
      split
      next => exact ih h₃ hrest hused hcount₃
      next start stop =>
        split
        next => exact Eff.post_of_eq rfl ⟨used, rfl, h₃, hcount₃⟩
        next hroom =>
          refine Eff.post_bind_ok rfl (Eff.post_bind_ok rfl (ih ?_ hrest (by omega) ?_))
          · refine (h₃.putDesc (Nat.not_le.mp hroom) _).setOut ?_
            dsimp only
            split
            next => rfl
            next => rfl
          · exact congrArg (· + 1) hcount₃

/-- A memory-map tag is read inside its bounds and written inside the buffer. -/
theorem convertMmap_post {tag tagSize : Nat} (h : Inside lo hi cap s) (hlo : lo ≤ tag)
    (hhi : tag + tagSize ≤ hi) :
    Eff.Post (convertMmap mem tag tagSize cap) s (fun r s' => Inside lo hi cap s' ∧
      ((∃ e, r = .error (.status e)) ∨ ∃ count, r = .ok count ∧ writesOf s'.trace = count)) := by
  have h₁ : Inside lo hi cap { s with trace := .memmapTag :: s.trace } := by
    refine ⟨fun a ha => ?_, fun i hi => ?_, h.rsdp⟩
    · rcases List.mem_cons.mp ha with ha | ha
      · cases ha
      · exact h.reads a ha
    · rcases List.mem_cons.mp hi with hi | hi
      · cases hi
      · exact h.writes i hi
  refine Eff.post_bind_ok rfl ?_
  split
  next => exact Eff.post_of_eq rfl ⟨h₁, Or.inl ⟨_, rfl⟩⟩
  next hbig =>
    have h₂ := h₁.logged (p := tag + 8) (w := 4) (by omega) (by omega)
    refine Eff.post_bind_ok rfl ?_
    split
    next => exact Eff.post_of_eq rfl ⟨h₂, Or.inl ⟨_, rfl⟩⟩
    next hsize =>
      generalize leNat (bytesAt mem (tag + 8) 4) = entrySize at hsize ⊢
      have hfit : (tagSize - 16) / entrySize * entrySize ≤ tagSize - 16 := Nat.div_mul_le_self _ _
      refine Eff.post_mono (convertEntries_post h₂ hlo ?_ (Nat.not_lt.mp hsize) (Nat.zero_le _) ?_) ?_
      · rw [Nat.zero_add]
        omega
      · exact writesOf_reads _ _
      · rintro r s' ⟨count, rfl, hinside, hcount⟩
        exact ⟨hinside, Or.inr ⟨count, rfl, hcount⟩⟩

/-- What one step of the conversion leaves behind. -/
def Good {α : Type} (lo hi cap : Nat) (r : Except Stop α) (s : Parse) : Prop :=
  Inside lo hi cap s ∧ r ≠ .error .hang ∧ ((∃ x, r = .ok x) → SizeOk s)

theorem good_ok {α : Type} (x : α) (h : Inside lo hi cap s) (hsize : SizeOk s) :
    Good lo hi cap (.ok x) s :=
  ⟨h, by simp, fun _ => hsize⟩

theorem good_error {α : Type} (e : Nstatus) (h : Inside lo hi cap s) :
    Good lo hi cap (.error (.status e) : Except Stop α) s := by
  refine ⟨h, by simp, ?_⟩
  rintro ⟨x, hx⟩
  cases hx

/-- A change of the information that leaves the memory map and the root pointer alone. -/
theorem setOut_post {f : Ntbli → Ntbli} (h : Inside lo hi cap s) (hsize : SizeOk s)
    (hf : ∀ out, (f out).rsdp = out.rsdp ∧ (f out).memmapBase = out.memmapBase ∧
      (f out).memmapSize = out.memmapSize) :
    Eff.Post (setOut f) s (fun r s' => r = .ok () ∧ Inside lo hi cap s' ∧ SizeOk s') := by
  refine Eff.post_of_eq rfl ⟨rfl, h.setOut (hf s.out).1, ?_⟩
  intro hbase
  change (f s.out).memmapBase ≠ 0 at hbase
  change (f s.out).memmapSize = writesOf s.trace * memDescSize
  rw [(hf s.out).2.1] at hbase
  rw [(hf s.out).2.2]
  exact hsize hbase

theorem convertModule_post {tag size : Nat} (h : Inside lo hi cap s) (hsize : SizeOk s)
    (hlo : lo ≤ tag) (hhi : tag + size ≤ hi) :
    Eff.Post (convertModule mem tag size) s
      (fun r s' => r = .ok () ∧ Inside lo hi cap s' ∧ SizeOk s') := by
  refine Eff.post_gets_bind ?_
  split
  next hcond =>
    have h₁ := h.logged (p := tag + 8) (w := 4) (by omega) (by omega)
    have h₂ := h₁.logged (p := tag + 12) (w := 4) (by omega) (by omega)
    have hsize₂ := (hsize.logged (tag + 8) 4).logged (tag + 12) 4
    refine Eff.post_bind_ok rfl (Eff.post_bind_ok rfl ?_)
    split
    next => exact setOut_post h₂ hsize₂ (fun _ => ⟨rfl, rfl, rfl⟩)
    next => exact Eff.post_of_eq rfl ⟨rfl, h₂, hsize₂⟩
  next => exact Eff.post_of_eq rfl ⟨rfl, h, hsize⟩

theorem convertFramebuffer_post {tag tagSize : Nat} (h : Inside lo hi cap s) (hsize : SizeOk s)
    (hlo : lo ≤ tag) (hhi : tag + tagSize ≤ hi) :
    Eff.Post (convertFramebuffer mem tag tagSize) s
      (fun r s' => r = .ok () ∧ Inside lo hi cap s' ∧ SizeOk s') := by
  unfold convertFramebuffer
  split
  next => exact Eff.post_of_eq rfl ⟨rfl, h, hsize⟩
  next =>
    have h₁ := h.logged (p := tag + 8) (w := 8) (by omega) (by omega)
    have h₂ := h₁.logged (p := tag + 16) (w := 4) (by omega) (by omega)
    have h₃ := h₂.logged (p := tag + 20) (w := 4) (by omega) (by omega)
    have h₄ := h₃.logged (p := tag + 24) (w := 4) (by omega) (by omega)
    have h₅ := h₄.logged (p := tag + 28) (w := 1) (by omega) (by omega)
    have h₆ := h₅.logged (p := tag + 29) (w := 1) (by omega) (by omega)
    have h₇ := h₆.logged (p := tag + 32) (w := 1) (by omega) (by omega)
    have h₈ := h₇.logged (p := tag + 34) (w := 1) (by omega) (by omega)
    have h₉ := h₈.logged (p := tag + 36) (w := 1) (by omega) (by omega)
    have hsize₉ := ((((((((hsize.logged (tag + 8) 8).logged (tag + 16) 4).logged (tag + 20)
      4).logged (tag + 24) 4).logged (tag + 28) 1).logged (tag + 29) 1).logged (tag + 32) 1).logged
      (tag + 34) 1).logged (tag + 36) 1
    refine Eff.post_bind_ok rfl (Eff.post_bind_ok rfl (Eff.post_bind_ok rfl (Eff.post_bind_ok rfl
      (Eff.post_bind_ok rfl (Eff.post_bind_ok rfl (Eff.post_bind_ok rfl (Eff.post_bind_ok rfl
        (Eff.post_bind_ok rfl ?_))))))))
    split
    next => exact Eff.post_of_eq rfl ⟨rfl, h₉, hsize₉⟩
    next =>
      split
      next => exact Eff.post_of_eq rfl ⟨rfl, h₉, hsize₉⟩
      next => exact setOut_post h₉ hsize₉ (fun _ => ⟨rfl, rfl, rfl⟩)

/-- A root pointer into a long enough tag. -/
theorem setRsdp_post {tag size : Nat} {α : Type} (x : α) (h : Inside lo hi cap s)
    (hsize : SizeOk s) (hlo : lo ≤ tag) (hhi : tag + size ≤ hi) (hlong : 8 + mb2MinRsdpSize ≤ size) :
    Eff.Post (setOut (fun out => { out with rsdp := tag + 8 }) >>= fun _ => pure x : ParseM α) s
      (Good lo hi cap) := by
  refine Eff.post_bind_ok rfl (Eff.post_of_eq rfl (good_ok x ⟨h.reads, h.writes, fun _ => ?_⟩ hsize))
  change lo ≤ tag + 8 ∧ tag + 8 + mb2MinRsdpSize ≤ hi
  omega

/-- One tag. -/
theorem convertTag_post {memmapBuf memmapCap tag type size : Nat} {haveRsdpNew : Bool}
    (hcap : cap = memmapCap / memDescSize) (h : Inside lo hi cap s) (hsize : SizeOk s)
    (hlo : lo ≤ tag) (hhi : tag + size ≤ hi) :
    Eff.Post (convertTag mem memmapBuf memmapCap tag type size haveRsdpNew) s
      (Good lo hi cap) := by
  unfold convertTag
  -- the tags whose conversion cannot fail
  have hplain : ∀ {m : ParseM Unit}, Eff.Post m s (fun r s' => r = .ok () ∧
      Inside lo hi cap s' ∧ SizeOk s') →
      Eff.Post (m >>= fun _ => pure haveRsdpNew : ParseM Bool) s (Good lo hi cap) := by
    intro m hm
    refine Eff.post_bind hm ?_ ?_
    · rintro e s' ⟨hcon, -⟩
      cases hcon
    · rintro x s' ⟨-, hinside, hsize'⟩
      exact Eff.post_of_eq rfl (good_ok _ hinside hsize')
  split
  next => exact hplain (convertModule_post h hsize hlo hhi)
  next =>
    split
    next =>
      rw [← hcap]
      refine post_attemptStatus_bind (convertMmap_post h hlo hhi) ?_ ?_ ?_ ?_
      · rintro count s' ⟨hinside, ⟨e, hcon⟩ | ⟨count', hok, hcount⟩⟩
        · cases hcon
        · cases hok
          refine Eff.post_bind_ok rfl (Eff.post_of_eq rfl (good_ok _
            ⟨hinside.reads, hinside.writes, hinside.rsdp⟩ ?_))
          intro _
          change count * memDescSize = writesOf s'.trace * memDescSize
          rw [hcount]
      · rintro e s' ⟨hinside, -⟩
        exact Eff.post_of_eq rfl (good_error _ hinside)
      · rintro s' ⟨-, ⟨e, hcon⟩ | ⟨count, hcon, -⟩⟩
        · cases hcon
        · cases hcon
      · rintro s' ⟨-, ⟨e, hcon⟩ | ⟨count, hcon, -⟩⟩
        · cases hcon
        · cases hcon
    next =>
      split
      next => exact hplain (convertFramebuffer_post h hsize hlo hhi)
      next =>
        split
        next =>
          split
          next hlong => exact setRsdp_post _ h hsize hlo hhi hlong
          next => exact Eff.post_of_eq rfl (good_ok _ h hsize)
        next =>
          split
          next =>
            split
            next hlong => exact setRsdp_post _ h hsize hlo hhi hlong.2
            next => exact Eff.post_of_eq rfl (good_ok _ h hsize)
          next => exact Eff.post_of_eq rfl (good_ok _ h hsize)

/-- The loop over the tags ends and stays inside the block. -/
theorem tagLoop_post {mbi total memmapBuf memmapCap fuel off : Nat} {haveRsdpNew : Bool}
    (hcap : cap = memmapCap / memDescSize) (htotal : total ≤ mb2MaxInfoSize)
    (hoff : off ≤ total + 7) (hfuel : total < off + fuel) (hpos : 0 < fuel)
    (h : Inside mbi (mbi + total) cap s) (hsize : SizeOk s) :
    Eff.Post (tagLoop mem mbi total memmapBuf memmapCap fuel off haveRsdpNew) s
      (Good mbi (mbi + total) cap) := by
  unfold mb2MaxInfoSize at htotal
  induction fuel generalizing off haveRsdpNew s with
  | zero => omega
  | succ fuel ih =>
      have hwrap : (off + 8) % 2 ^ 32 = off + 8 := Nat.mod_eq_of_lt (by omega)
      unfold tagLoop
      rw [hwrap]
      split
      next hin =>
        have h₁ := h.logged (p := mbi + off) (w := 4) (by omega) (by omega)
        have h₂ := h₁.logged (p := mbi + off + 4) (w := 4) (by omega) (by omega)
        have hsize₂ := (hsize.logged (mbi + off) 4).logged (mbi + off + 4) 4
        refine Eff.post_bind_ok rfl (Eff.post_bind_ok rfl ?_)
        generalize leNat (bytesAt mem (mbi + off) 4) = type
        generalize leNat (bytesAt mem (mbi + off + 4) 4) = size
        split
        next => exact Eff.post_of_eq rfl (good_ok _ h₂ hsize₂)
        next =>
          split
          next => exact Eff.post_of_eq rfl (good_error _ h₂)
          next hfit =>
            rw [not_or, Nat.not_lt, Nat.not_lt] at hfit
            refine Eff.post_bind (convertTag_post hcap h₂ hsize₂ (by omega) (by omega)) ?_ ?_
            · rintro e s' ⟨hinside, hhang, -⟩
              refine ⟨hinside, fun hcon => hhang ?_, ?_⟩
              · cases hcon
                rfl
              · rintro ⟨x, hx⟩
                cases hx
            · rintro x s' ⟨hinside, -, hsize'⟩
              have hnext : (off + (size + 7) % 2 ^ 32 / 8 * 8) % 2 ^ 32 =
                  off + (size + 7) / 8 * 8 := by omega
              rw [hnext]
              exact ih (by omega) (by omega) (by omega) hinside (hsize' ⟨x, rfl⟩)
      next => exact Eff.post_of_eq rfl (good_ok _ h hsize)

/-! ## The whole conversion -/

/-- The size that the header of a block states. -/
def totalSize (mem : Nat → UInt8) (mbi : Nat) : Nat :=
  leNat (bytesAt mem mbi 4)

/-- The header of a block is accepted. -/
def HeaderOk (mem : Nat → UInt8) (mbi : Nat) : Prop :=
  mbi ≠ 0 ∧ mbi % 8 = 0 ∧ mbi < 2 ^ 32 ∧ 16 ≤ totalSize mem mbi ∧
    totalSize mem mbi ≤ mb2MaxInfoSize ∧ mbi + totalSize mem mbi ≤ 2 ^ 32

instance (mem : Nat → UInt8) (mbi : Nat) : Decidable (HeaderOk mem mbi) :=
  inferInstanceAs (Decidable (_ ∧ _))

/-- The conversion of a block with an accepted header stays inside the block, whatever the
tags hold.  It returns, it reads only bytes of the block, it writes only descriptors that fit
the buffer, on success the reported size is that of the descriptors of the last memory-map
tag, and a reported root pointer names twenty bytes of the block. -/
theorem multiboot2_inside (mem : Nat → UInt8) (mbi memmapBuf memmapCap : Nat)
    (hheader : HeaderOk mem mbi) (out : Ntbli) (memmap : Nat → MemDesc)
    {r : Except Stop Unit} {s : Parse}
    (hrun : multiboot2ToNtbli mem mbi memmapBuf memmapCap ⟨out, memmap, []⟩ = (r, s)) :
    r ≠ .error .hang ∧
    (∀ a, .read a ∈ s.trace → mbi ≤ a ∧ a < mbi + totalSize mem mbi) ∧
    (∀ i, .write i ∈ s.trace → i < memmapCap / memDescSize) ∧
    (r = .ok () → s.out.memmapSize = writesOf s.trace * memDescSize) ∧
    (memmapBuf ≠ 0 → s.out.rsdp ≠ 0 →
      mbi ≤ s.out.rsdp ∧ s.out.rsdp + mb2MinRsdpSize ≤ mbi + totalSize mem mbi) := by
  obtain ⟨hnull, halign, hlow, hmin, hmax, hend⟩ := hheader
  by_cases hbuf : memmapBuf = 0
  · unfold multiboot2ToNtbli at hrun
    rw [if_pos hbuf] at hrun
    cases hrun
    refine ⟨by simp, by simp, by simp, by simp, fun hne => absurd hbuf hne⟩
  · have hpost : Eff.Post (multiboot2ToNtbli mem mbi memmapBuf memmapCap) ⟨out, memmap, []⟩
        (fun r s => Inside mbi (mbi + totalSize mem mbi) (memmapCap / memDescSize) s ∧
          r ≠ .error .hang ∧
          (r = .ok () → s.out.memmapSize = writesOf s.trace * memDescSize)) := by
      unfold multiboot2ToNtbli
      rw [if_neg hbuf, if_neg (by omega)]
      refine Eff.post_bind_ok rfl ?_
      change Eff.Post (if totalSize mem mbi < 16 ∨ mb2MaxInfoSize < totalSize mem mbi ∨
        2 ^ 32 < mbi + totalSize mem mbi then _ else _) _ _
      rw [if_neg (by omega)]
      refine Eff.post_bind_ok rfl ?_
      have hstart : Inside mbi (mbi + totalSize mem mbi) (memmapCap / memDescSize)
          ({ out := Ntbli.start, memmap := memmap, trace := [] } : Parse) :=
        ⟨by simp, by simp, fun hne => absurd rfl hne⟩
      have hread := hstart.logged (p := mbi) (w := 4) (Nat.le_refl _) (by omega)
      have hsize : SizeOk (Parse.logged ⟨Ntbli.start, memmap, []⟩ mbi 4) :=
        fun hne => absurd rfl hne
      have hloop : Eff.Post (tagLoop mem mbi (totalSize mem mbi) memmapBuf memmapCap
          (totalSize mem mbi) 8 false) (Parse.logged ⟨Ntbli.start, memmap, []⟩ mbi 4)
          (Good mbi (mbi + totalSize mem mbi) (memmapCap / memDescSize)) :=
        tagLoop_post rfl hmax (by omega) (by omega) (by omega) hread hsize
      refine Eff.post_bind hloop ?_ ?_
      · rintro e s' ⟨hinside, hhang, -⟩
        refine ⟨hinside, fun hcon => hhang ?_, fun hcon => ?_⟩
        · cases hcon
          rfl
        · cases hcon
      · rintro x s' ⟨hinside, -, hsize'⟩
        refine Eff.post_gets_bind ?_
        split
        next => exact Eff.post_of_eq rfl ⟨hinside, by simp, by simp⟩
        next hreport =>
          rw [not_or] at hreport
          exact Eff.post_of_eq rfl ⟨hinside, by simp, fun _ => hsize' ⟨x, rfl⟩ hreport.1⟩
    unfold Eff.Post at hpost
    rw [hrun] at hpost
    obtain ⟨hinside, hhang, hsize⟩ := hpost
    exact ⟨hhang, hinside.reads, hinside.writes, hsize, fun _ => hinside.rsdp⟩

/-- A block with a memory map of one entry, a root pointer and an end tag. -/
def smallBlock : List UInt8 :=
  leBytes 4 88 ++ leBytes 4 0 ++
    (leBytes 4 6 ++ leBytes 4 40 ++ leBytes 4 24 ++ leBytes 4 0 ++
      (leBytes 8 0x100000 ++ leBytes 8 0x200000 ++ leBytes 4 1 ++ leBytes 4 0)) ++
    (leBytes 4 14 ++ leBytes 4 28 ++ List.replicate 24 0) ++
    (leBytes 4 0 ++ leBytes 4 8)

/-- Memory that holds the small block. -/
def smallMem (a : Nat) : UInt8 :=
  smallBlock.getD (a - 0x1000) 0

/-- The conversion of the small block, with a buffer for two descriptors. -/
def smallParse : Except Stop Unit × Parse :=
  multiboot2ToNtbli smallMem 0x1000 0x8000 80 ⟨Ntbli.start, fun _ => ⟨0, 0, 0, 0, 0, 0⟩, []⟩

theorem multiboot2_inside_small :
    smallParse.2.out.memmapSize = 40 ∧
      smallParse.2.out.rsdp + 20 ≤ 0x1000 + totalSize smallMem 0x1000 := by
  have hsize : smallParse.2.out.memmapSize = 40 := by decide +kernel
  have hrsdp : smallParse.2.out.rsdp ≠ 0 := by decide +kernel
  have hinside := multiboot2_inside smallMem 0x1000 0x8000 80 (by decide +kernel) Ntbli.start
    (fun _ => ⟨0, 0, 0, 0, 0, 0⟩) (s := smallParse.2) (r := smallParse.1) rfl
  exact ⟨hsize, (hinside.2.2.2.2 (by decide) hrsdp).2⟩

end Boot
end Nyxis
