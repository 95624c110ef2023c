import Nyxis.Boot.Handover
import Nyxis.Console.Printk
import Nyxis.Mm.KernelDirect

/-!
# The start of the kernel

{lit}`kernel_main` of {lit}`kernel/kernel.c` from {lit}`paging_init` to the console: the page tables
are built and switched to, the addresses in the boot information are moved to the direct map, the
frame allocator is given the memory map, and the console is given the framebuffer.  Its messages are
left out, and so is what it sets up of the processor before.

Main results:

- Theorem {lit}`startKernel_run`: what a successful start has done.
- Theorem {lit}`startKernel_of_paging`: when a start succeeds.
- Theorem {lit}`console_inside_framebuffer`: the console draws in the framebuffer, through addresses
  that may be written, and nowhere else.
- Theorem {lit}`frames_after_boot`: whatever callers do with their frames, a frame is memory that
  nobody else has, and the address space of the kernel stays as it is.
-/

namespace Nyxis
namespace Boot

open Mm (Memory Pager PagerM PagingInfo Pfa BootRanges Holding FrameRun pagingInit pfaInit
  pagingAlignUp pagingAlignDown pageSize hhdmBase kernelVmaBase virtToPhys)
open Console (PrintkState PrintkM printkInit putChars)

/-! ## State -/

/-- The globals that the start of the kernel sets up: those of {lit}`kernel.c`, of {lit}`paging.c`,
of {lit}`pfa.c` and of {lit}`printk.c`. -/
structure Kernel extends BootStore where
  pager : Pager
  pfaInitialized : Bool
  console : PrintkState

/-- The arguments of {lit}`fatal`, which stops the kernel. -/
structure Fatal where
  error : Nstatus
  message : String
deriving DecidableEq

/-- Computations of the start. -/
abbrev StartM := Eff Fatal Kernel

/-- Call the paging code, and stop the kernel if it fails. -/
def callPaging (message : String) (c : PagerM Unit) : StartM Unit := fun s =>
  match c s.pager with
  | (.ok _, pager) => (.ok (), { s with pager := pager })
  | (.error error, pager) => (.error ⟨error, message⟩, { s with pager := pager })

/-- Call the frame allocator, and stop the kernel if it fails. -/
def callPfa (message : String) (c : Eff Nstatus Pfa Unit) : StartM Unit := fun s =>
  match c ⟨s.pager.memory, s.pfaInitialized⟩ with
  | (.ok _, pfa) => (.ok (), { s with
      pager := { s.pager with memory := pfa.memory }, pfaInitialized := pfa.initialized })
  | (.error error, pfa) => (.error ⟨error, message⟩, { s with
      pager := { s.pager with memory := pfa.memory }, pfaInitialized := pfa.initialized })

/-- Call the console and drop its status. -/
def callConsole (c : PrintkM Unit) : StartM Unit :=
  Eff.modify (fun s => { s with console := (c s.console).2 })

/-! ## The start -/

/-- {lit}`phys_to_virt`. -/
def physToVirt (phys : Nat) : Nat :=
  (phys + hhdmBase) % 2 ^ 64

/-- {lit}`boot_info_sanitize_initrd`. -/
def bootInfoSanitizeInitrd (info : Ntbli) : Ntbli :=
  if info.initrdBase = 0 ∧ info.initrdSize = 0 then info
  else
    let stop := (info.initrdBase + info.initrdSize) % 2 ^ 64
    if info.initrdBase = 0 ∨ info.initrdSize = 0 ∨ stop < info.initrdBase ∨
        (info.memorySize ≠ 0 ∧ stop > info.memorySize) then
      { info with initrdBase := 0, initrdSize := 0 }
    else info

/-- {lit}`boot_info_relocate`. -/
def bootInfoRelocate (info : Ntbli) : Ntbli :=
  { info with
    initrdBase := if info.initrdBase = 0 then 0 else physToVirt info.initrdBase
    framebufferBase := if info.framebufferBase = 0 then 0 else physToVirt info.framebufferBase
    rsdp := if info.rsdp = 0 then 0 else physToVirt info.rsdp }

/-- The memory map in {lit}`g_memmap_store`. -/
def Kernel.memmap (s : Kernel) : List MemDesc :=
  memmapOf s.bootInfo s.memmapStore

/-- What {lit}`paging_init` uses of the boot information. -/
def Kernel.pagingInfo (s : Kernel) : PagingInfo where
  memmap := s.memmap
  framebufferBase := s.bootInfo.framebufferBase
  framebufferSize := s.bootInfo.framebufferSize

/-- The ranges that {lit}`kernel_main` hands to {lit}`pfa_init`. -/
def pfaRanges (image : Mm.Platform) (info : Ntbli) (hhdmLimit : Nat) : BootRanges where
  kernelStart := image.bootStart
  kernelEnd := pagingAlignUp (image.kernelEnd - kernelVmaBase) pageSize
  initrdStart := if info.initrdBase = 0 then 0 else virtToPhys info.initrdBase
  initrdEnd :=
    if info.initrdBase = 0 then 0 else (virtToPhys info.initrdBase + info.initrdSize) % 2 ^ 64
  hhdmLimit := hhdmLimit

/-- {lit}`console_init_from_boot_info`. -/
def consoleInitFromBootInfo (info : Ntbli) : StartM Unit :=
  if info.framebufferBase = 0 then pure ()
  else if info.pixelFormat ≠ ntbliPixelRgb ∧ info.pixelFormat ≠ ntbliPixelBgr then pure ()
  else if info.framebufferBase % 4 ≠ 0 then pure ()
  else
    let needed := info.pixelsPerScanLine * info.height * 4 % 2 ^ 64
    if info.framebufferSize < needed then pure ()
    else callConsole (printkInit info.framebufferBase info.pixelsPerScanLine info.width info.height)

/-- {lit}`kernel_main`, from {lit}`boot_info_sanitize_initrd` to {lit}`console_init_from_boot_info`. -/
def startKernel (image : Mm.Platform) : StartM Unit := do
  Eff.modify (fun s => { s with bootInfo := bootInfoSanitizeInitrd s.bootInfo })
  let info ← Eff.gets Kernel.pagingInfo
  callPaging "Paging init failed" (pagingInit image (some info))
  Eff.modify (fun s => { s with bootInfo := bootInfoRelocate s.bootInfo })
  let s ← Eff.gets id
  callPfa "Physical frame allocator init failed"
    (pfaInit (some s.memmap) (pfaRanges image s.bootInfo s.pager.hhdmLimit))
  consoleInitFromBootInfo s.bootInfo

/-! ## What a start has done -/

variable {image : Mm.Platform} {s₀ s : Kernel}

theorem callPaging_inv {message : String} {c : PagerM Unit}
    (h : callPaging message c s₀ = (.ok (), s)) :
    ∃ pager, c s₀.pager = (.ok (), pager) ∧ s = { s₀ with pager := pager } := by
  unfold callPaging at h
  cases hrun : c s₀.pager with
  | mk r pager =>
      rw [hrun] at h
      cases r with
      | ok u => exact ⟨pager, rfl, (congrArg Prod.snd h).symm⟩
      | error e => cases h

theorem callPfa_inv {message : String} {c : Eff Nstatus Pfa Unit}
    (h : callPfa message c s₀ = (.ok (), s)) :
    ∃ pfa, c ⟨s₀.pager.memory, s₀.pfaInitialized⟩ = (.ok (), pfa) ∧
      s = { s₀ with
        pager := { s₀.pager with memory := pfa.memory }, pfaInitialized := pfa.initialized } := by
  unfold callPfa at h
  cases hrun : c ⟨s₀.pager.memory, s₀.pfaInitialized⟩ with
  | mk r pfa =>
      rw [hrun] at h
      cases r with
      | ok u => exact ⟨pfa, rfl, (congrArg Prod.snd h).symm⟩
      | error e => cases h

/-- The console behind {lit}`console_init_from_boot_info`: as it was, or initialised with a
framebuffer that is large enough. -/
inductive ConsoleStart (info : Ntbli) (before after : PrintkState) : Prop
  | off (h : after = before)
  | on (base : info.framebufferBase ≠ 0)
      (large : info.pixelsPerScanLine * info.height * 4 % 2 ^ 64 ≤ info.framebufferSize)
      (run : printkInit info.framebufferBase info.pixelsPerScanLine info.width info.height before =
        (.ok (), after))

theorem consoleInitFromBootInfo_run (info : Ntbli) (s : Kernel) :
    ∃ console, consoleInitFromBootInfo info s = (.ok (), { s with console := console }) ∧
      ConsoleStart info s.console console := by
  unfold consoleInitFromBootInfo
  dsimp only
  split
  next => exact ⟨s.console, rfl, .off rfl⟩
  next hbase =>
    split
    next => exact ⟨s.console, rfl, .off rfl⟩
    next =>
      split
      next => exact ⟨s.console, rfl, .off rfl⟩
      next =>
        split
        next => exact ⟨s.console, rfl, .off rfl⟩
        next hlarge =>
          refine ⟨_, rfl, ?_⟩
          rcases Console.printkInit_cases info.framebufferBase info.pixelsPerScanLine info.width
            info.height s.console with ⟨e, hrun⟩ | ⟨console, hrun, -⟩
          · rw [hrun]
            exact .off rfl
          · rw [hrun]
            exact .on hbase (Nat.not_lt.mp hlarge) hrun

/-- What a successful start has done. -/
structure Started (image : Mm.Platform) (s₀ s : Kernel) (info : Ntbli) (pager : Pager) : Prop where
  sanitized : info = bootInfoSanitizeInitrd s₀.bootInfo
  paging : pagingInit image (some s₀.pagingInfo) s₀.pager = (.ok (), pager)
  frames : ∃ pfa, pfaInit (some s₀.memmap)
    (pfaRanges image (bootInfoRelocate info) pager.hhdmLimit) ⟨pager.memory, s₀.pfaInitialized⟩ =
      (.ok (), pfa) ∧ s.pager = { pager with memory := pfa.memory }
  console : ConsoleStart (bootInfoRelocate info) s₀.console s.console

/-- Nothing but the initial ramdisk is changed in the boot information. -/
theorem bootInfoSanitizeInitrd_eq (info : Ntbli) :
    ∃ base size, bootInfoSanitizeInitrd info =
      { info with initrdBase := base, initrdSize := size } := by
  unfold bootInfoSanitizeInitrd
  dsimp only
  split
  next => exact ⟨info.initrdBase, info.initrdSize, rfl⟩
  next =>
    split
    next => exact ⟨0, 0, rfl⟩
    next => exact ⟨info.initrdBase, info.initrdSize, rfl⟩

/-- The memory map is that of the boot information and its store. -/
theorem memmap_eq {s s' : Kernel} (hbase : s'.bootInfo.memmapBase = s.bootInfo.memmapBase)
    (hsize : s'.bootInfo.memmapSize = s.bootInfo.memmapSize)
    (hdesc : s'.bootInfo.memmapDescSize = s.bootInfo.memmapDescSize)
    (hstore : s'.memmapStore = s.memmapStore) : s'.memmap = s.memmap :=
  memmapOf_congr (by rw [hbase]) hsize hdesc (fun i _ => congrFun hstore i)

/-- The paging code is given the same boot information with and without the initial ramdisk. -/
theorem pagingInfo_sanitized (s : Kernel) :
    Kernel.pagingInfo { s with bootInfo := bootInfoSanitizeInitrd s.bootInfo } = s.pagingInfo := by
  obtain ⟨base, size, hset⟩ := bootInfoSanitizeInitrd_eq s.bootInfo
  have hmemmap : Kernel.memmap { s with bootInfo := bootInfoSanitizeInitrd s.bootInfo } = s.memmap := by
    rw [hset]
    exact memmap_eq rfl rfl rfl rfl
  rw [Kernel.pagingInfo, hmemmap, hset]
  rfl

theorem startKernel_run (h : startKernel image s₀ = (.ok (), s)) :
    ∃ info pager, Started image s₀ s info pager := by
  obtain ⟨info, hinfo⟩ : ∃ info, info = bootInfoSanitizeInitrd s₀.bootInfo := ⟨_, rfl⟩
  unfold startKernel at h
  rw [Eff.modify_bind_run, Eff.gets_bind_run, pagingInfo_sanitized, ← hinfo] at h
  obtain ⟨u, s₁, hpaging, h⟩ := Eff.bind_inv h
  obtain ⟨pager, hrun, rfl⟩ := callPaging_inv hpaging
  rw [Eff.modify_bind_run, Eff.gets_bind_run] at h
  obtain ⟨u', s₂, hpfa, h⟩ := Eff.bind_inv h
  obtain ⟨pfa, hframes, rfl⟩ := callPfa_inv hpfa
  obtain ⟨console, hconsole, hstart⟩ := consoleInitFromBootInfo_run (bootInfoRelocate info)
    ⟨⟨bootInfoRelocate info, s₀.memmapStore⟩, { pager with memory := pfa.memory }, pfa.initialized,
      s₀.console⟩
  obtain rfl := congrArg Prod.snd (hconsole.symm.trans h)
  refine ⟨info, pager, hinfo, hrun, ⟨pfa, ?_, rfl⟩, hstart⟩
  have hmemmap : Kernel.memmap ⟨⟨bootInfoRelocate info, s₀.memmapStore⟩, pager, s₀.pfaInitialized,
      s₀.console⟩ = s₀.memmap := by
    obtain ⟨base, size, hset⟩ := bootInfoSanitizeInitrd_eq s₀.bootInfo
    rw [hinfo, hset]
    exact memmap_eq rfl rfl rfl rfl
  rw [← hmemmap]
  exact hframes

theorem callPaging_ok {message : String} {c : PagerM Unit} {pager : Pager}
    (h : c s.pager = (.ok (), pager)) :
    callPaging message c s = (.ok (), { s with pager := pager }) := by
  unfold callPaging
  rw [h]

theorem callPfa_fresh (h : s.pfaInitialized = false) (message : String) (descs : List MemDesc)
    (b : BootRanges) : ∃ s', callPfa message (pfaInit (some descs) b) s = (.ok (), s') := by
  unfold callPfa
  rw [h]
  exact ⟨_, rfl⟩

/-- A start succeeds if the page tables can be built. -/
theorem startKernel_of_paging {pager : Pager}
    (hpaging : pagingInit image (some s₀.pagingInfo) s₀.pager = (.ok (), pager))
    (hpfa : s₀.pfaInitialized = false) : ∃ s, startKernel image s₀ = (.ok (), s) := by
  unfold startKernel
  rw [Eff.modify_bind_run, Eff.gets_bind_run, pagingInfo_sanitized,
    Eff.bind_ok (callPaging_ok (s := { s₀ with bootInfo := bootInfoSanitizeInitrd s₀.bootInfo })
      hpaging), Eff.modify_bind_run, Eff.gets_bind_run]
  obtain ⟨s₁, hs₁⟩ : ∃ s₁, s₁ = Kernel.mk
    ⟨bootInfoRelocate (bootInfoSanitizeInitrd s₀.bootInfo), s₀.memmapStore⟩ pager s₀.pfaInitialized
    s₀.console := ⟨_, rfl⟩
  have hfresh : s₁.pfaInitialized = false := by rw [hs₁, hpfa]
  obtain ⟨s₂, hs₂⟩ := callPfa_fresh hfresh "Physical frame allocator init failed" s₁.memmap
    (pfaRanges image s₁.bootInfo s₁.pager.hhdmLimit)
  obtain ⟨console, hconsole, -⟩ := consoleInitFromBootInfo_run s₁.bootInfo s₂
  have hrest := (Eff.bind_ok (f := fun _ => consoleInitFromBootInfo s₁.bootInfo) hs₂).trans hconsole
  rw [hs₁] at hrest
  exact ⟨_, hrest⟩

/-! ## Addresses -/

theorem physToVirt_eq {phys : Nat} (h : phys < 2 ^ 47) : physToVirt phys = hhdmBase + phys := by
  have hbase : hhdmBase = 0xFFFF800000000000 := rfl
  unfold physToVirt
  omega

/-- The addresses of the direct map are turned back below the base of the image. -/
theorem virtToPhys_physToVirt {phys : Nat} (h : phys < 2 ^ 46) :
    virtToPhys (physToVirt phys) = phys := by
  have hbase : hhdmBase = 0xFFFF800000000000 := rfl
  have hvma : kernelVmaBase = 0xFFFFFFFF80000000 := rfl
  rw [physToVirt_eq (by omega)]
  unfold virtToPhys
  rw [if_neg (by omega), if_pos (by omega)]
  omega

/-- The initial ramdisk that is left does not wrap around. -/
theorem bootInfoSanitizeInitrd_end (info : Ntbli)
    (hbase : (bootInfoSanitizeInitrd info).initrdBase ≠ 0)
    (hfits : info.initrdBase < 2 ^ 64 ∧ info.initrdSize < 2 ^ 64) :
    (bootInfoSanitizeInitrd info).initrdBase + (bootInfoSanitizeInitrd info).initrdSize < 2 ^ 64 := by
  unfold bootInfoSanitizeInitrd at hbase ⊢
  dsimp only at hbase ⊢
  split at hbase
  next hnone => exact absurd hnone.1 hbase
  next hsome =>
    rw [if_neg hsome]
    split at hbase
    next => exact absurd rfl hbase
    next hok =>
      rw [if_neg hok]
      omega

/-- The symbols of the linker, with the pool of tables in the data of the kernel. -/
structure Loaded (image : Mm.Platform) : Prop extends image.Linked where
  pool_data : image.dataStart ≤ image.pool
  pool_end : image.pool + Mm.pagingPoolPages * pageSize ≤ image.kernelEnd

/-! ## Frames -/

/-- The descriptors of a memory map lie apart. -/
def DescsApart (memmap : List MemDesc) : Prop :=
  memmap.Pairwise (fun d e => d.physStart + d.numPages * pageSize ≤ e.physStart ∨
    e.physStart + e.numPages * pageSize ≤ d.physStart)

theorem DescsApart.apart {memmap : List MemDesc} (h : DescsApart memmap) (b : BootRanges) :
    Mm.Apart b memmap := by
  refine List.Pairwise.imp (fun {d e} hde f hd he => ?_) h
  have hsize : pageSize = 4096 := rfl
  have hlower := hd.lower
  have hupper := hd.upper
  have hlower' := he.lower
  have hupper' := he.upper
  omega

theorem pfaRanges_initrd (image : Mm.Platform) {info : Ntbli} (limit : Nat) (hbase : info.initrdBase ≠ 0)
    (hsmall : info.initrdBase < 2 ^ 46)
    (hend : info.initrdBase + info.initrdSize < 2 ^ 64) :
    (pfaRanges image (bootInfoRelocate info) limit).initrdStart = info.initrdBase ∧
      (pfaRanges image (bootInfoRelocate info) limit).initrdEnd =
        info.initrdBase + info.initrdSize := by
  have hhhdm : hhdmBase = 0xFFFF800000000000 := rfl
  have hrelocated : (bootInfoRelocate info).initrdBase = physToVirt info.initrdBase := if_neg hbase
  have hne : physToVirt info.initrdBase ≠ 0 := by
    rw [physToVirt_eq (by omega)]
    omega
  have hsize : (bootInfoRelocate info).initrdSize = info.initrdSize := rfl
  unfold pfaRanges
  dsimp only
  rw [hrelocated, if_neg hne, if_neg hne, virtToPhys_physToVirt hsmall, hsize, Nat.mod_eq_of_lt hend]
  exact ⟨rfl, rfl⟩

theorem Loaded.bootStart_lt (h : Loaded image) :
    image.bootStart < image.kernelEnd - kernelVmaBase := by
  have hpage : pageSize = 4096 := rfl
  have hpages : Mm.pagingPoolPages = 320 := rfl
  have hboot := h.boot_text
  have htext := h.text
  have htext' := h.text_rodata
  have hrodata := h.rodata
  have hrodata' := h.rodata_data
  have hdata := h.pool_data
  have hend := h.pool_end
  rw [hpage, hpages] at hend
  omega

theorem freeFrame_outside (hlink : Loaded image) {info : Ntbli} {memmap : List MemDesc} {limit f : Nat}
    (h : Mm.FreeFrame (pfaRanges image info limit) memmap f) {o : Nat} (ho : o < pageSize) :
    ¬image.InImage (f + o) := by
  rintro ⟨hlo, hhi⟩
  have hpage : pageSize = 4096 := rfl
  have haligned := h.aligned
  have hkernel : ∀ a, f ≤ a → a < f + pageSize →
      ¬(image.bootStart ≤ a ∧ a < image.kernelEnd - kernelVmaBase) := by
    intro a hle hlt
    have hno := h.kernel a hle hlt
    unfold pfaRanges at hno
    dsimp only at hno
    rw [hlink.alignUp_size] at hno
    exact hno
  unfold pagingAlignDown at hlo
  rw [hpage] at hlo haligned ho
  -- the image may start in the middle of a page
  by_cases hstart : image.bootStart ≤ f + o
  · exact hkernel (f + o) (by omega) (by omega) ⟨hstart, hhi⟩
  · exact hkernel image.bootStart (by omega) (by omega) ⟨le_refl _, hlink.bootStart_lt⟩

theorem freeFrame_initrd {info : Ntbli} {memmap : List MemDesc} {limit f : Nat}
    (hlimit : limit ≤ Mm.hhdmMaxLimit) (hbase : info.initrdBase ≠ 0)
    (hend : info.initrdBase + info.initrdSize < 2 ^ 64)
    (h : Mm.FreeFrame (pfaRanges image (bootInfoRelocate info) limit) memmap f) {o : Nat}
    (ho : o < pageSize) :
    ¬(info.initrdBase ≤ f + o ∧ f + o < info.initrdBase + info.initrdSize) := by
  intro hin
  have hmax : Mm.hhdmMaxLimit = 0x1000000000 := rfl
  have hmapped : f + pageSize ≤ limit := h.mapped
  -- the direct map ends far below the addresses that are not turned back
  have hno := h.initrd (f + o) (by omega) (by omega)
  obtain ⟨hfirst, hlast⟩ := pfaRanges_initrd image limit hbase (by omega) hend
  rw [hfirst, hlast] at hno
  exact hno hin

/-- The tables of the pool lie in the image. -/
theorem Loaded.table_inImage (h : Loaded image) {n : Nat} (hn : n < Mm.pagingPoolPages) :
    image.InImage (image.table n) := by
  have hpage : pageSize = 4096 := rfl
  have hboot := h.boot_text
  have htext := h.text
  have htext' := h.text_rodata
  have hrodata := h.rodata
  have hrodata' := h.rodata_data
  have hdata := h.pool_data
  have hend := h.pool_end
  have hlower := h.pool.lower
  have hmul : (n + 1) * pageSize ≤ Mm.pagingPoolPages * pageSize := Nat.mul_le_mul_right _ hn
  rw [Nat.add_mul, Nat.one_mul] at hmul
  unfold Mm.Platform.InImage
  rw [h.pool.table_eq]
  unfold pagingAlignDown
  rw [hpage] at hmul hend ⊢
  omega

/-! ## The address space behind a start -/

variable {info : Ntbli} {pager : Pager}

/-- The frames that the allocator is given. -/
def bootFrames (image : Mm.Platform) (s₀ : Kernel) (info : Ntbli) (limit : Nat) : List Nat :=
  s₀.memmap.flatMap (Mm.framesOf (pfaRanges image (bootInfoRelocate info) limit))

theorem Started.memory (h : Started image s₀ s info pager) :
    s.pager.memory = Mm.pushAll { pager.memory with freeHead := 0, freeCount := 0 }
      (bootFrames image s₀ info pager.hhdmLimit) := by
  obtain ⟨pfa, hrun, hpager⟩ := h.frames
  rw [hpager]
  exact Mm.pfaInit_memory (fun d hd => memmapOf_physStart_lt hd) hrun

/-- A start changes the frames that the allocator is given, and no others. -/
theorem Started.keepsFrame (h : Started image s₀ s info pager) {f : Nat}
    (hf : f ∉ bootFrames image s₀ info pager.hhdmLimit) :
    Mm.KeepsFrame f pager.memory s.pager.memory := by
  rw [h.memory]
  have hempty : Mm.KeepsFrame f pager.memory { pager.memory with freeHead := 0, freeCount := 0 } :=
    ⟨rfl, rfl⟩
  exact hempty.trans (Mm.keepsFrame_pushAll hf)

theorem table_not_bootFrame (hlink : Loaded image) {n limit : Nat} (hn : n < Mm.pagingPoolPages) :
    image.table n ∉ bootFrames image s₀ info limit := fun hmem =>
  freeFrame_outside hlink (Mm.freeFrame_of_mem hmem) (o := 0) (by decide)
    (hlink.table_inImage hn)

/-- Memory in which the frames of the allocator have been changed shows the same address space. -/
theorem Started.access_eq (h : Started image s₀ s info pager) (hlink : Loaded image) {m : Memory}
    (hkept : ∀ f ∉ bootFrames image s₀ info pager.hhdmLimit, Mm.KeepsFrame f pager.memory m) (v : Nat) :
    ({ pager with memory := m } : Pager).access v = pager.access v := by
  obtain ⟨roles, hbuilt⟩ := Mm.pagingInit_whole hlink.toLinked h.paging
  have hroot : m.kernelPml4 = pager.memory.kernelPml4 :=
    (hkept _ (table_not_bootFrame hlink (n := 0) (by decide))).kernelPml4
  have hsame := hbuilt.rooted.access_congr
    (fun n hn => (hkept _ (table_not_bootFrame hlink hn)).mem) v
  rw [← hsame, ← hroot]
  rfl

theorem Started.access (h : Started image s₀ s info pager) (hlink : Loaded image) (v : Nat) :
    s.pager.access v = pager.access v := by
  rw [← h.access_eq hlink (fun f hf => h.keepsFrame hf) v]
  rfl

theorem Started.framebuffer (h : Started image s₀ s info pager) :
    info.framebufferBase = s₀.bootInfo.framebufferBase ∧
      info.framebufferSize = s₀.bootInfo.framebufferSize := by
  obtain ⟨base, size, hset⟩ := bootInfoSanitizeInitrd_eq s₀.bootInfo
  rw [h.sanitized, hset]
  exact ⟨rfl, rfl⟩

theorem Started.limit_le (h : Started image s₀ s info pager) (hlink : Loaded image) :
    pager.hhdmLimit ≤ Mm.hhdmMaxLimit := by
  obtain ⟨roles, hbuilt⟩ := Mm.pagingInit_whole hlink.toLinked h.paging
  rw [hbuilt.limit]
  exact (Mm.limitFor_bounds _).2

/-- A frame of the allocator is memory of its own, which the kernel reaches and may write. -/
structure BootFrame (image : Mm.Platform) (s₀ s : Kernel) (info : Ntbli) (f : Nat) : Prop where
  aligned : f % pageSize = 0
  conventional : ∃ d ∈ s₀.memmap, d.type = ntbliMemConventional ∧ d.physStart ≤ f ∧
    f + pageSize ≤ d.physStart + d.numPages * pageSize
  image : ∀ o < pageSize, ¬image.InImage (f + o)
  initrd : info.initrdBase ≠ 0 → ∀ o < pageSize,
    ¬(info.initrdBase ≤ f + o ∧ f + o < info.initrdBase + info.initrdSize)
  reach : ∀ o < pageSize, ∃ r, s.pager.access (hhdmBase + (f + o)) = some r ∧ r.phys = f + o ∧
    r.writable = true

theorem Started.bootFrame (h : Started image s₀ s info pager) (hlink : Loaded image)
    (hend : info.initrdBase ≠ 0 → info.initrdBase + info.initrdSize < 2 ^ 64) {f : Nat}
    (hf : f ∈ bootFrames image s₀ info pager.hhdmLimit) : BootFrame image s₀ s info f := by
  have hfree := Mm.freeFrame_of_mem hf
  refine ⟨hfree.aligned, hfree.conventional, fun o ho => freeFrame_outside hlink hfree ho,
    fun hbase o ho => freeFrame_initrd (h.limit_le hlink) hbase (hend hbase) hfree ho,
    fun o ho => ?_⟩
  have hmapped : f + pageSize ≤ pager.hhdmLimit := hfree.mapped
  obtain ⟨-, r, hr, hphys, hwritable⟩ := Mm.pagingInit_direct hlink.toLinked h.paging
    (q := f + o) (Or.inl (by omega))
  exact ⟨r, (h.access hlink _).trans hr, hphys,
    hwritable (freeFrame_outside hlink hfree ho)⟩

theorem Ntbli.Fits.initrd {info : Ntbli} (h : info.Fits) :
    info.initrdBase < 2 ^ 64 ∧ info.initrdSize < 2 ^ 64 :=
  ⟨h (8, info.initrdBase) (by simp [ntbliWidths, Ntbli.values]),
    h (8, info.initrdSize) (by simp [ntbliWidths, Ntbli.values])⟩

/-- The initial ramdisk of a started kernel does not wrap around. -/
theorem Started.initrd_end (h : Started image s₀ s info pager) (hfits : s₀.bootInfo.Fits)
    (hbase : info.initrdBase ≠ 0) : info.initrdBase + info.initrdSize < 2 ^ 64 := by
  rw [h.sanitized] at hbase ⊢
  exact bootInfoSanitizeInitrd_end s₀.bootInfo hbase hfits.initrd

/-- The links spell out the frames that the allocator is given, and the counter is their number. -/
theorem Started.listed (h : Started image s₀ s info pager) (hlink : Loaded image)
    (hapart : DescsApart s₀.memmap) :
    Mm.FreeList s.pager.memory.mem s.pager.memory.freeHead
        (bootFrames image s₀ info pager.hhdmLimit).reverse ∧
      s.pager.memory.freeCount.toNat = (bootFrames image s₀ info pager.hhdmLimit).reverse.length := by
  have hdescs := hapart.apart (pfaRanges image (bootInfoRelocate info) pager.hhdmLimit)
  constructor
  · obtain ⟨pfa, hrun, hpager⟩ := h.frames
    rw [hpager]
    exact (Mm.pfaInit_freeList (fun d hd => memmapOf_physStart_lt hd) hrun).mpr ⟨rfl, hdescs⟩
  · have hnodup : (bootFrames image s₀ info pager.hhdmLimit).Nodup :=
      (Mm.nodup_frames_iff _ _).mpr hdescs
    have hlen := Mm.length_frames_lt hnodup (h.limit_le hlink) (fun f hf => by
      have hfree := Mm.freeFrame_of_mem hf
      have hmapped : f + pageSize ≤ pager.hhdmLimit := hfree.mapped
      have hpage : pageSize = 4096 := rfl
      exact ⟨hfree.aligned, by omega⟩)
    rw [h.memory, Mm.pushAll_freeCount, List.length_reverse, UInt64.zero_add,
      UInt64.toNat_ofNat_of_lt' hlen]

/-! ## The frames and the console of a running kernel -/

/-- Behind a successful start, whatever callers allocate, release and write: the usable frames of the
memory map are free or held by one caller, each is conventional memory outside of the image and of
the initial ramdisk that the kernel reaches and may write, and every address of the kernel reaches
what it reached. -/
theorem frames_after_boot (hlink : Loaded image) (hfits : s₀.bootInfo.Fits)
    (hapart : DescsApart s₀.memmap) (hrun : startKernel image s₀ = (.ok (), s)) :
    ∃ all : List Nat,
      (∀ f, f ∈ all ↔ ∃ d ∈ s₀.memmap, Mm.Usable
        (pfaRanges image (bootInfoRelocate (bootInfoSanitizeInitrd s₀.bootInfo)) s.pager.hhdmLimit)
          d f) ∧
      (∀ f ∈ all, BootFrame image s₀ s (bootInfoSanitizeInitrd s₀.bootInfo) f) ∧
      ∀ t, FrameRun s.pager.memory t → (∃ free, t.Accounts all free) ∧
        ∀ v, ({ s.pager with memory := t.memory } : Pager).access v = s.pager.access v := by
  obtain ⟨info, pager, h⟩ := startKernel_run hrun
  obtain ⟨hlist, hcount⟩ := h.listed hlink hapart
  have hlimit : s.pager.hhdmLimit = pager.hhdmLimit := by
    obtain ⟨pfa, -, hpager⟩ := h.frames
    rw [hpager]
  refine ⟨_, fun f => ?_, fun f hf => ?_, fun t ht => ⟨ht.accounts hlist hcount, fun v => ?_⟩⟩
  · rw [List.mem_reverse, bootFrames, List.mem_flatMap, ← h.sanitized, hlimit]
    simp only [Mm.mem_framesOf]
  · rw [← h.sanitized]
    exact h.bootFrame hlink (h.initrd_end hfits) (List.mem_reverse.mp hf)
  · rw [h.access hlink, ← h.access_eq hlink (m := t.memory) (fun f hf => ?_) v]
    · rfl
    · refine (h.keepsFrame hf).trans (ht.kept hlist hcount ?_)
      rw [List.mem_reverse]
      exact hf

/-- A machine with one descriptor, a screen with room for one glyph and no initial ramdisk. -/
def smallBoot : Kernel where
  bootInfo := { Ntbli.start with
    framebufferBase := 0xE0000000
    framebufferSize := 1088
    width := 16
    height := 16
    pixelsPerScanLine := 17
    pixelFormat := ntbliPixelRgb
    memmapBase := 0x200000
    memmapSize := memDescSize
    memmapDescSize := memDescSize }
  memmapStore := fun i => smallDesc.bytes.getD i 0
  pager := Mm.smallPager
  pfaInitialized := false
  console := Console.bareConsole

theorem smallBoot_memmap : smallBoot.memmap = [smallDesc] := by
  decide +kernel

theorem smallPlatform_loaded : Loaded Mm.smallPlatform :=
  ⟨Mm.smallPlatform_linked, by decide, by decide⟩

theorem startKernel_small : ∃ s, startKernel Mm.smallPlatform smallBoot = (.ok (), s) := by
  have hnear : (smallBoot.pagingInfo.framebufferBase + smallBoot.pagingInfo.framebufferSize) % 2 ^ 64 ≤
      Mm.limitFor smallBoot.pagingInfo.memmap :=
    le_trans (by decide) (Mm.limitFor_bounds smallBoot.pagingInfo.memmap).1
  obtain ⟨pager, hpaging⟩ := Mm.pagingInit_succeeds Mm.smallPlatform_linked smallBoot.pagingInfo
    smallBoot.pager (by decide) hnear
  exact startKernel_of_paging hpaging rfl

/-- One page: it is at one place, and the address space stays as it is. -/
theorem frames_after_boot_small : ∃ s, startKernel Mm.smallPlatform smallBoot = (.ok (), s) ∧
    ∀ t, FrameRun s.pager.memory t →
      ∀ v, ({ s.pager with memory := t.memory } : Pager).access v = s.pager.access v := by
  obtain ⟨s, hrun⟩ := startKernel_small
  have hapart : DescsApart smallBoot.memmap := by
    rw [smallBoot_memmap]
    exact List.pairwise_singleton _ _
  obtain ⟨all, -, -, hall⟩ := frames_after_boot smallPlatform_loaded (by decide) hapart hrun
  exact ⟨s, hrun, fun t ht => (hall t ht).2⟩

/-- The console of a started kernel that is on draws at the address of the framebuffer in the direct
map, and all cells of its screen are cells of the framebuffer. -/
theorem Started.screen_fits (h : Started image s₀ s info pager)
    (hne : (bootInfoRelocate info).framebufferBase ≠ 0)
    (hlarge : (bootInfoRelocate info).pixelsPerScanLine * (bootInfoRelocate info).height * 4 % 2 ^ 64 ≤
      (bootInfoRelocate info).framebufferSize)
    (haccepted : Console.Screen.Accepted ⟨(bootInfoRelocate info).framebufferBase,
      (bootInfoRelocate info).pixelsPerScanLine, (bootInfoRelocate info).width,
      (bootInfoRelocate info).height⟩) {cell j : Nat}
    (hcell : cell < (bootInfoRelocate info).pixelsPerScanLine * (bootInfoRelocate info).height)
    (hj : j < 4) :
    (bootInfoRelocate info).framebufferBase = physToVirt s₀.bootInfo.framebufferBase ∧
      s₀.pagingInfo.InFramebuffer (s₀.bootInfo.framebufferBase + 4 * cell + j) := by
  obtain ⟨hbase, hsize⟩ := h.framebuffer
  have hzero : info.framebufferBase ≠ 0 := fun hzero => hne (if_pos hzero)
  refine ⟨hbase ▸ if_neg hzero, fun hnull => hzero (hbase.trans hnull), ?_, ?_⟩
  · change s₀.bootInfo.framebufferBase ≤ _
    omega
  · change _ < s₀.bootInfo.framebufferBase + s₀.bootInfo.framebufferSize
    have hprod := haccepted.product_le _ (le_refl _)
    dsimp only at hprod
    rw [Nat.mul_comm] at hprod
    obtain ⟨cells, hcount⟩ : ∃ cells, cells =
      (bootInfoRelocate info).pixelsPerScanLine * (bootInfoRelocate info).height := ⟨_, rfl⟩
    rw [← hcount] at hlarge hcell hprod
    have hlarge' : cells * 4 % 2 ^ 64 ≤ s₀.bootInfo.framebufferSize := hsize ▸ hlarge
    omega

/-- Whatever is printed behind a successful start, every cell that the console reads or writes from
its initialisation on is one of the framebuffer, which the kernel reaches there and may write. -/
theorem console_inside_framebuffer (hlink : Loaded image)
    (hwidth : s₀.bootInfo.framebufferBase + s₀.bootInfo.framebufferSize ≤ 2 ^ 52)
    (hdevice : ∀ q, s₀.pagingInfo.InFramebuffer q → ¬image.InImage q)
    (hoff : s₀.console.screen.fb = 0) (hrun : startKernel image s₀ = (.ok (), s))
    (fonts : Nat → List UInt8) (cs : List UInt8) :
    ∃ console new, putChars fonts cs s.console = (.ok (), console) ∧
      console.trace = s₀.console.trace ++ new ∧
      ∀ e ∈ new, ∀ cell, e.Touches cell → ∀ j < 4, ∃ r,
        s.pager.access (console.screen.fb + 4 * cell + j) = some r ∧
          r.phys = s₀.bootInfo.framebufferBase + 4 * cell + j ∧
          s₀.pagingInfo.InFramebuffer r.phys ∧ r.writable = true := by
  obtain ⟨info, pager, h⟩ := startKernel_run hrun
  cases h.console with
  | off hsame =>
      rw [hsame]
      exact ⟨s₀.console, [], Console.putChars_off fonts cs hoff, (List.append_nil _).symm,
        fun e he => absurd he List.not_mem_nil⟩
  | on hne hlarge hinit =>
      obtain ⟨haccepted, console, new, hputs, hscreen, htrace, hfits⟩ :=
        Console.printkInit_draws hinit fonts cs
      refine ⟨console, new, hputs, htrace, fun e he cell hcell j hj => ?_⟩
      obtain ⟨hfb, hin⟩ := h.screen_fits hne hlarge haccepted ((hfits e he).touches_lt hcell) hj
      obtain ⟨hlt, r, hr, hphys, hwritable⟩ := Mm.pagingInit_direct hlink.toLinked h.paging
        (Or.inr ⟨hin, hwidth⟩)
      have hvirt : console.screen.fb + 4 * cell + j =
          hhdmBase + (s₀.bootInfo.framebufferBase + 4 * cell + j) := by
        rw [hscreen]
        dsimp only
        rw [hfb, physToVirt_eq (by omega)]
        omega
      rw [hvirt, h.access hlink]
      exact ⟨r, hr, hphys, hphys ▸ hin, hwritable (hdevice _ hin)⟩

/-- Two letters on a screen for one. -/
theorem console_inside_framebuffer_small : ∃ s console,
    startKernel Mm.smallPlatform smallBoot = (.ok (), s) ∧
      putChars (fun _ => []) [65, 66] s.console = (.ok (), console) := by
  obtain ⟨s, hrun⟩ := startKernel_small
  have hdevice : ∀ q, smallBoot.pagingInfo.InFramebuffer q → ¬Mm.smallPlatform.InImage q := by
    rintro q ⟨-, hlo, -⟩ ⟨-, hhi⟩
    have hlo' : 0xE0000000 ≤ q := hlo
    have hhi' : q < 0x300000 := hhi
    omega
  obtain ⟨console, -, hputs, -⟩ := console_inside_framebuffer smallPlatform_loaded (by decide) hdevice
    rfl hrun (fun _ => []) [65, 66]
  exact ⟨s, console, hrun, hputs⟩

end Boot
end Nyxis
