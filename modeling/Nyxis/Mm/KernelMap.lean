import Nyxis.Mm.Translation
import Nyxis.Boot.Multiboot2

/-!
# The page tables of the kernel

{lit}`paging_init` of {lit}`kernel/paging/paging.c` builds the upper half of every address space:
the direct map of physical memory out of large pages, some of which are split again to take away
the permission to write the image of the kernel, and the image itself out of small pages.  The
tables come from a pool inside the image.

A pointer to a table stands for the physical address of the table, as everywhere in this model.

Main results:

- Definition {lit}`pagingInit`: the function.
- Definition {lit}`Role`: what a table of the pool is there for.
- Theorem {lit}`Tables.append`: one more table from the pool.
- Theorem {lit}`Tables.store`: a store that suits the role of its table.
-/

namespace Nyxis
namespace Mm

open Boot (MemDesc ntbliMemReserved ntbliMemUnusable ntbliPageSize)

/-! ## The functions -/

def pageSize2m : Nat := 0x200000
def hhdmMinLimit : Nat := 0x100000000
def hhdmMaxLimit : Nat := 0x1000000000
def pdptSpanLimit : Nat := 0x8000000000
def kernelPdptIndex : Nat := 510
def pagingPoolPages : Nat := 320
def kernelVmaBase : Nat := 0xFFFFFFFF80000000
def hhdmBase : Nat := 0xFFFF800000000000

def ntbliMemMmio : Nat := 11
def ntbliMemMmioPort : Nat := 12
def ntbliMemPalCode : Nat := 13

/-- The symbols of the linker script and of {lit}`boot.s`, the pool of tables {lit}`g_pool`, and
what {lit}`cpuid` says about the no-execute bit. -/
structure Platform where
  bootStart : Nat
  textStart : Nat
  textEnd : Nat
  rodataStart : Nat
  rodataEnd : Nat
  dataStart : Nat
  kernelEnd : Nat
  bootStackGuard : Nat
  pool : Nat
  cpuNx : Bool

/-- Memory, and the globals of {lit}`paging.c` that {lit}`paging_init` sets up.  {lit}`g_pml4` and
{lit}`g_nx_supported` are part of the memory subsystem. -/
structure Pager where
  memory : Memory
  poolUsed : Nat
  pdptHhdm : Nat
  pdKernel : Nat
  hhdmLimit : Nat

/-- Computations of {lit}`paging_init`. -/
abbrev PagerM := Eff Nstatus Pager

/-- Store one word of a table. -/
def Pager.store (s : Pager) (table idx word : Nat) : Pager :=
  { s with memory := s.memory.store table idx word }

@[simp]
theorem Pager.store_kernelPml4 (s : Pager) (table idx word : Nat) :
    (s.store table idx word).memory.kernelPml4 = s.memory.kernelPml4 :=
  rfl

@[simp]
theorem Pager.store_pdptHhdm (s : Pager) (table idx word : Nat) :
    (s.store table idx word).pdptHhdm = s.pdptHhdm :=
  rfl

@[simp]
theorem Pager.store_pdKernel (s : Pager) (table idx word : Nat) :
    (s.store table idx word).pdKernel = s.pdKernel :=
  rfl

/-- {lit}`nx_bit`. -/
def nxBit (nx : Bool) : Nat :=
  if nx then pageNx else 0

/-- {lit}`virt_to_phys`. -/
def virtToPhys (a : Nat) : Nat :=
  if a ≥ kernelVmaBase then a - kernelVmaBase
  else if a ≥ hhdmBase then a - hhdmBase
  else a

/-- {lit}`align_up`. -/
def pagingAlignUp (v a : Nat) : Nat :=
  (v + a - 1) % 2 ^ 64 / a * a

/-- {lit}`align_down`. -/
def pagingAlignDown (v a : Nat) : Nat :=
  v / a * a

/-- The physical address of a table of the pool. -/
def Platform.table (k : Platform) (n : Nat) : Nat :=
  virtToPhys (k.pool + n * pageSize)

/-- {lit}`alloc_table`. -/
def allocTable (k : Platform) : PagerM (Option Nat) := do
  let used ← Eff.gets Pager.poolUsed
  if used ≥ pagingPoolPages then
    pure none
  else do
    Eff.modify (fun s => { s with memory := s.memory.clear (k.table used), poolUsed := used + 1 })
    pure (some (k.table used))

/-- The entry of a table that leads to another one. -/
def linkEntry (table : Nat) : Nat :=
  table ||| pagePresent ||| pageRw

/-- The table that an entry leads to, a new one if there is none.  {lit}`hhdm_pd` and
{lit}`map_kernel_page` both do this, each with a table of its own. -/
def linkedTable (k : Platform) (parent idx : Nat) : PagerM (Option Nat) := do
  let entry ← Eff.gets (fun s => s.memory.mem parent idx)
  if hasFlag entry pagePresent then
    pure (some (tableOf entry))
  else
    match ← allocTable k with
    | none => pure none
    | some table => do
        Eff.modify (fun s => s.store parent idx (linkEntry table))
        pure (some table)

/-- {lit}`hhdm_pd`. -/
def hhdmPd (k : Platform) (pdptIdx : Nat) : PagerM (Option Nat) := do
  let pdpt ← Eff.gets Pager.pdptHhdm
  linkedTable k pdpt pdptIdx

/-- The entry of a large page of the direct map. -/
def hugeEntry (addr : Nat) (nx : Bool) : Nat :=
  addr ||| pagePresent ||| pageRw ||| pageHuge ||| nxBit nx

/-- A loop over addresses that goes up in equal steps.  It is given the number of steps between the
two addresses. -/
def addrLoop (body : Nat → PagerM Unit) (step stop : Nat) : (n addr : Nat) → PagerM Unit
  | 0, _ => pure ()
  | n + 1, addr =>
      if addr < stop then do
        body addr
        addrLoop body step stop n ((addr + step) % 2 ^ 64)
      else
        pure ()

/-- Number of steps of a loop from one address to another. -/
def stepsBetween (first last step : Nat) : Nat :=
  (last - first + step - 1) / step

/-- The body of the loop of {lit}`map_hhdm_2m`. -/
def mapRegion (k : Platform) (addr : Nat) : PagerM Unit := do
  match ← hhdmPd k ((addr >>> 30) &&& 0x1FF) with
  | none => Eff.fail .NoutOfMemory
  | some pd =>
      Eff.modify (fun s =>
        if hasFlag (s.memory.mem pd ((addr >>> 21) &&& 0x1FF)) pagePresent then s
        else s.store pd ((addr >>> 21) &&& 0x1FF) (hugeEntry addr s.memory.nxSupported))

/-- {lit}`map_hhdm_2m`. -/
def mapHhdm2m (k : Platform) (start stop : Nat) : PagerM Unit :=
  if stop > pdptSpanLimit then
    Eff.fail .Nunsupported
  else
    let first := pagingAlignDown start pageSize2m
    addrLoop (mapRegion k) pageSize2m stop (stepsBetween first stop pageSize2m) first

/-- The entries of a split large page. -/
def splitEntry (base : Nat) (nx : Bool) (i : Nat) : Nat :=
  (base + i * pageSize) ||| pagePresent ||| pageRw ||| nxBit nx

/-- Fill a table with the entries of a split large page. -/
def Pager.fillSplit (s : Pager) (pt base : Nat) : Pager :=
  { s with memory := { s.memory with
      mem := Function.update s.memory.mem pt (fun i =>
        if i < entriesPerTable then splitEntry base s.memory.nxSupported i
        else s.memory.mem pt i) } }

theorem Pager.fillSplit_mem_of_ne {s : Pager} {pt base f : Nat} (h : f ≠ pt) :
    (s.fillSplit pt base).memory.mem f = s.memory.mem f := by
  unfold Pager.fillSplit
  exact Function.update_of_ne h _ _

/-- {lit}`hhdm_pt_for`. -/
def hhdmPtFor (k : Platform) (addr : Nat) : PagerM (Option Nat) := do
  match ← hhdmPd k ((addr >>> 30) &&& 0x1FF) with
  | none => pure none
  | some pd => do
      let pde ← Eff.gets (fun s => s.memory.mem pd ((addr >>> 21) &&& 0x1FF))
      if hasFlag pde pagePresent && !hasFlag pde pageHuge then
        pure (some (tableOf pde))
      else
        match ← allocTable k with
        | none => pure none
        | some pt => do
            Eff.modify (fun s => s.fillSplit pt (pagingAlignDown addr pageSize2m))
            Eff.modify (fun s => s.store pd ((addr >>> 21) &&& 0x1FF) (linkEntry pt))
            pure (some pt)

/-- The entry of a page of the direct map that may not be written. -/
def readonlyEntry (addr : Nat) (nx : Bool) : Nat :=
  addr ||| pagePresent ||| nxBit nx

/-- The body of the loop of {lit}`hhdm_make_readonly`. -/
def protectPage (k : Platform) (addr : Nat) : PagerM Unit := do
  match ← hhdmPtFor k addr with
  | none => Eff.fail .NoutOfMemory
  | some pt =>
      Eff.modify (fun s => s.store pt ((addr >>> 12) &&& 0x1FF)
        (readonlyEntry addr s.memory.nxSupported))

/-- {lit}`hhdm_make_readonly`. -/
def hhdmMakeReadonly (k : Platform) (start stop : Nat) : PagerM Unit :=
  let first := pagingAlignDown start pageSize
  addrLoop (protectPage k) pageSize stop (stepsBetween first stop pageSize) first

/-- {lit}`map_kernel_page`. -/
def mapKernelPage (k : Platform) (virt flags : Nat) : PagerM Unit := do
  let pd ← Eff.gets Pager.pdKernel
  match ← linkedTable k pd (((virt - kernelVmaBase) >>> 21) &&& 0x1FF) with
  | none => Eff.fail .NoutOfMemory
  | some pt =>
      Eff.modify (fun s => s.store pt ((virt >>> 12) &&& 0x1FF)
        ((virt - kernelVmaBase) ||| flags ||| pagePresent))

/-- The loops of {lit}`map_kernel_image`; the last one leaves out a page. -/
def mapSection (k : Platform) (flags : Nat) (guard : Option Nat) (first last : Nat) : PagerM Unit :=
  addrLoop (fun v => if guard = some v then pure () else mapKernelPage k v flags) pageSize last
    (stepsBetween first last pageSize) first

/-- {lit}`map_kernel_image`. -/
def mapKernelImage (k : Platform) : PagerM Unit := do
  let nx ← Eff.gets (fun s => nxBit s.memory.nxSupported)
  mapSection k 0 none k.textStart k.textEnd
  mapSection k nx none k.rodataStart k.rodataEnd
  mapSection k (pageRw ||| nx) (some k.bootStackGuard) k.dataStart
    (pagingAlignUp k.kernelEnd pageSize)

/-- What {lit}`paging_init` uses of {lit}`NTBLI`: the memory map and the framebuffer. -/
structure PagingInfo where
  memmap : List MemDesc
  framebufferBase : Nat
  framebufferSize : Nat

/-- The loop of {lit}`paging_init` over the memory map: how far the direct map has to reach. -/
def widenLimit (limit : Nat) (d : MemDesc) : Nat :=
  if d.type = ntbliMemMmio ∨ d.type = ntbliMemMmioPort ∨ d.type = ntbliMemReserved ∨
      d.type = ntbliMemUnusable ∨ d.type = ntbliMemPalCode then limit
  else if d.numPages > 0x1000000000000 / ntbliPageSize then limit
  else
    let stop := (d.physStart + d.numPages * ntbliPageSize) % 2 ^ 64
    if stop < d.physStart then limit
    else if stop > limit then stop
    else limit

/-- The limit of the direct map. -/
def limitFor (memmap : List MemDesc) : Nat :=
  let limit := memmap.foldl widenLimit hhdmMinLimit
  pagingAlignUp (if limit > hhdmMaxLimit then hhdmMaxLimit else limit) pageSize2m

/-- The part of {lit}`paging_init` that maps a framebuffer outside the direct map. -/
def mapFramebuffer (k : Platform) (info : PagingInfo) (limit : Nat) : PagerM Unit :=
  let fb := info.framebufferBase
  let fbEnd := (fb + info.framebufferSize) % 2 ^ 64
  if fb ≠ 0 ∧ info.framebufferSize ≠ 0 ∧ fbEnd > fb ∧ fbEnd > limit then
    mapHhdm2m k (pagingAlignDown fb pageSize2m) (pagingAlignUp fbEnd pageSize2m)
  else
    pure ()

/-- The tables that {lit}`paging_init` starts with, linked to each other. -/
def initTables (k : Platform) : PagerM Unit := do
  Eff.modify (fun s => { s with
    memory := { s.memory with nxSupported := k.cpuNx }
    poolUsed := 0 })
  let pml4 ← allocTable k
  let pdptHhdm ← allocTable k
  let pdptKernel ← allocTable k
  let pdKernel ← allocTable k
  match pml4, pdptHhdm, pdptKernel, pdKernel with
  | some pml4, some pdptHhdm, some pdptKernel, some pdKernel => do
      Eff.modify (fun s => { s with
        memory := { s.memory with kernelPml4 := pml4 }
        pdptHhdm := pdptHhdm
        pdKernel := pdKernel })
      Eff.modify (fun s => s.store pml4 hhdmPml4Index (linkEntry pdptHhdm))
      Eff.modify (fun s => s.store pml4 kernelPml4Index (linkEntry pdptKernel))
      Eff.modify (fun s => s.store pdptKernel kernelPdptIndex (linkEntry pdKernel))
  | _, _, _, _ => Eff.fail .NoutOfMemory

/-- {lit}`paging_init`. -/
def pagingInit (k : Platform) (info : Option PagingInfo) : PagerM Unit :=
  match info with
  | none => Eff.fail .NinvalidArg
  | some info => do
      initTables k
      let limit := limitFor info.memmap
      Eff.modify (fun s => { s with hhdmLimit := limit })
      mapHhdm2m k 0 limit
      mapFramebuffer k info limit
      hhdmMakeReadonly k k.bootStart
        (pagingAlignUp (k.kernelEnd - kernelVmaBase) pageSize)
      mapKernelImage k

/-! ## Entries -/

/-- An address that an entry can hold. -/
structure PageBase (p : Nat) : Prop where
  aligned : p % pageSize = 0
  lt : p < 2 ^ 52

theorem PageBase.tableOf_or {p flags : Nat} (h : PageBase p) (hflags : flags &&& entryAddrMask = 0) :
    tableOf (p ||| flags) = p := by
  rcases Nat.eq_zero_or_pos p with rfl | hpos
  · rw [Nat.zero_or]
    exact hflags
  · exact Mm.tableOf_or ⟨by omega, h.aligned, h.lt⟩ hflags

theorem PageBase.testBit_flag {p i : Nat} (h : PageBase p) (hi : i < 12 ∨ 52 ≤ i) :
    p.testBit i = false := by
  rcases Nat.eq_zero_or_pos p with rfl | hpos
  · exact Nat.zero_testBit i
  · have hframe : Frame p := ⟨by omega, h.aligned, h.lt⟩
    rcases hi with hlow | hhigh
    · exact hframe.testBit_low hlow
    · exact hframe.testBit_high hhigh

/-- The flags of an entry for an address. -/
structure HasFlags (entry : Nat) (rw huge nx : Bool) : Prop where
  present : isPresent entry = true
  rw_eq : hasFlag entry pageRw = rw
  huge_eq : hasFlag entry pageHuge = huge
  nx_eq : hasFlag entry pageNx = nx

theorem PageBase.hasFlags {p flags : Nat} (h : PageBase p) (hpresent : flags.testBit 0 = true) :
    HasFlags (p ||| flags) (flags.testBit 1) (flags.testBit 7) (flags.testBit 63) := by
  refine ⟨?_, ?_, ?_, ?_⟩
  · rw [isPresent, hasFlag_present, Nat.testBit_or, hpresent, Bool.or_true]
  · rw [hasFlag_rw, Nat.testBit_or, h.testBit_flag (by decide), Bool.false_or]
  · rw [hasFlag_huge, Nat.testBit_or, h.testBit_flag (by decide), Bool.false_or]
  · rw [hasFlag_nx, Nat.testBit_or, h.testBit_flag (by decide), Bool.false_or]

theorem linkEntry_flags {p : Nat} (h : PageBase p) :
    HasFlags (linkEntry p) true false false ∧ tableOf (linkEntry p) = p := by
  have heq : linkEntry p = p ||| (pagePresent ||| pageRw) := Nat.or_assoc _ _ _
  rw [heq]
  exact ⟨h.hasFlags rfl, h.tableOf_or (by decide)⟩

theorem hugeEntry_flags {p : Nat} (h : PageBase p) (nx : Bool) :
    HasFlags (hugeEntry p nx) true true nx ∧ tableOf (hugeEntry p nx) = p := by
  have heq : hugeEntry p nx = p ||| (pagePresent ||| pageRw ||| pageHuge ||| nxBit nx) := by
    simp only [hugeEntry, Nat.or_assoc]
  rw [heq]
  cases nx with
  | false => exact ⟨h.hasFlags rfl, h.tableOf_or (by decide)⟩
  | true => exact ⟨h.hasFlags rfl, h.tableOf_or (by decide)⟩

theorem splitEntry_flags {base i : Nat} (h : PageBase (base + i * pageSize)) (nx : Bool) :
    HasFlags (splitEntry base nx i) true false nx ∧
      tableOf (splitEntry base nx i) = base + i * pageSize := by
  have heq : splitEntry base nx i =
      (base + i * pageSize) ||| (pagePresent ||| pageRw ||| nxBit nx) := by
    simp only [splitEntry, Nat.or_assoc]
  rw [heq]
  cases nx with
  | false => exact ⟨h.hasFlags rfl, h.tableOf_or (by decide)⟩
  | true => exact ⟨h.hasFlags rfl, h.tableOf_or (by decide)⟩

theorem readonlyEntry_flags {p : Nat} (h : PageBase p) (nx : Bool) :
    HasFlags (readonlyEntry p nx) false false nx ∧ tableOf (readonlyEntry p nx) = p := by
  have heq : readonlyEntry p nx = p ||| (pagePresent ||| nxBit nx) := Nat.or_assoc _ _ _
  rw [heq]
  cases nx with
  | false => exact ⟨h.hasFlags rfl, h.tableOf_or (by decide)⟩
  | true => exact ⟨h.hasFlags rfl, h.tableOf_or (by decide)⟩

theorem HasFlags.ne_zero {entry : Nat} {rw huge nx : Bool} (h : HasFlags entry rw huge nx) :
    entry ≠ 0 := by
  rintro rfl
  exact absurd h.present (by decide)

/-! ## The pool -/

/-- The pool lies in the image of the kernel, which lies in the first GiB above its base. -/
structure Platform.PoolOk (k : Platform) : Prop where
  aligned : k.pool % pageSize = 0
  lower : kernelVmaBase ≤ k.pool
  upper : k.pool + pagingPoolPages * pageSize ≤ kernelVmaBase + 2 ^ 30

variable {k : Platform}

theorem Platform.PoolOk.table_eq (h : k.PoolOk) (n : Nat) :
    k.table n = k.pool - kernelVmaBase + n * pageSize := by
  have hlower := h.lower
  unfold Platform.table virtToPhys
  rw [if_pos (by omega)]
  omega

theorem Platform.PoolOk.table_inj (h : k.PoolOk) {n n' : Nat} (heq : k.table n = k.table n') :
    n = n' := by
  have hsize : pageSize = 4096 := rfl
  rw [h.table_eq, h.table_eq, hsize] at heq
  omega

theorem Platform.PoolOk.pageBase (h : k.PoolOk) {n : Nat} (hn : n < pagingPoolPages) :
    PageBase (k.table n) := by
  have hlower := h.lower
  have hupper := h.upper
  have haligned := h.aligned
  have hbase : kernelVmaBase = 0xFFFFFFFF80000000 := rfl
  have hsize : pageSize = 4096 := rfl
  have hpages : pagingPoolPages = 320 := rfl
  rw [hsize] at haligned hupper
  rw [hpages] at hupper hn
  constructor
  · rw [h.table_eq, hsize]
    omega
  · rw [h.table_eq, hsize]
    omega

/-! ## Roles -/

/-- What a table of the pool is there for.  The tables of the direct map are told apart by the part
of physical memory they stand for, and the page tables of the image by their index. -/
inductive Role
  | pml4
  | hhdmPdpt
  | kernelPdpt
  | kernelPd
  | hhdmPd (i : Nat)
  | hhdmPt (i j : Nat)
  | kernelPt (j : Nat)

/-- The physical address of a region of 2 MiB. -/
def regionBase (i j : Nat) : Nat :=
  i * 2 ^ 30 + j * 2 ^ 21

/-- The physical address of a page of a region. -/
def regionPage (i j l : Nat) : Nat :=
  regionBase i j + l * pageSize

/-- The physical address of a page of the image. -/
def imagePage (j l : Nat) : Nat :=
  j * 2 ^ 21 + l * pageSize

/-- A page of the image lies in a section. -/
def InSection (first last p : Nat) : Prop :=
  first ≤ kernelVmaBase + p ∧ kernelVmaBase + p < last

/-- The entry of a page of the image: code may be run, constants may be read, data may be written. -/
inductive ImageEntry (k : Platform) (p : Nat) : Nat → Prop
  | text (h : InSection k.textStart k.textEnd p) : ImageEntry k p (p ||| 0 ||| pagePresent)
  | rodata (h : InSection k.rodataStart k.rodataEnd p) :
      ImageEntry k p (p ||| nxBit k.cpuNx ||| pagePresent)
  | data (h : InSection k.dataStart (pagingAlignUp k.kernelEnd pageSize) p) :
      ImageEntry k p (p ||| (pageRw ||| nxBit k.cpuNx) ||| pagePresent)

/-- An entry leads to a table of a role. -/
def Links (k : Platform) (roles : List Role) (role : Role) (entry : Nat) : Prop :=
  ∃ n, roles[n]? = some role ∧ entry = linkEntry (k.table n)

/-- What may stand at an index of a table. -/
def EntryOk (k : Platform) (roles : List Role) : Role → Nat → Nat → Prop
  | .pml4, i, e => e = 0 ∨ (i = hhdmPml4Index ∧ Links k roles .hhdmPdpt e) ∨
      (i = kernelPml4Index ∧ Links k roles .kernelPdpt e)
  | .hhdmPdpt, i, e => e = 0 ∨ Links k roles (.hhdmPd i) e
  | .kernelPdpt, i, e => e = 0 ∨ (i = kernelPdptIndex ∧ Links k roles .kernelPd e)
  | .kernelPd, j, e => e = 0 ∨ Links k roles (.kernelPt j) e
  | .hhdmPd i, j, e => e = 0 ∨ e = hugeEntry (regionBase i j) k.cpuNx ∨
      Links k roles (.hhdmPt i j) e
  | .hhdmPt i j, l, e => l < entriesPerTable →
      e = splitEntry (regionBase i j) k.cpuNx l ∨ e = readonlyEntry (regionPage i j l) k.cpuNx
  | .kernelPt j, l, e => e = 0 ∨ ImageEntry k (imagePage j l) e

/-- What may become of an entry: a large page may be split, and a page of the direct map may lose
the permission to write. -/
def EntryKept (k : Platform) : Role → Nat → Nat → Nat → Prop
  | .hhdmPd i, j, e, e' => e = 0 ∨ e' = e ∨ (e = hugeEntry (regionBase i j) k.cpuNx ∧ e' ≠ 0)
  | .hhdmPt i j, l, e, e' => e = readonlyEntry (regionPage i j l) k.cpuNx → e' = e
  | .kernelPt _, _, _, _ => True
  | _, _, e, e' => e = 0 ∨ e' = e

theorem EntryKept.refl (role : Role) (i e : Nat) : EntryKept k role i e e := by
  cases role with
  | hhdmPd _ => exact Or.inr (Or.inl rfl)
  | hhdmPt _ _ => exact fun _ => rfl
  | kernelPt _ => exact trivial
  | _ => exact Or.inr rfl

theorem EntryKept.trans {role : Role} {i e e' e'' : Nat} (h : EntryKept k role i e e')
    (h' : EntryKept k role i e' e'') : EntryKept k role i e e'' := by
  have hlast : ∀ {a b c : Nat}, a = 0 ∨ b = a → b = 0 ∨ c = b → a = 0 ∨ c = a := by
    omega
  cases role with
  | hhdmPd i' =>
      rcases h with h | rfl | ⟨h, hne⟩
      · exact Or.inl h
      · exact h'
      · rcases h' with h' | rfl | ⟨-, hne'⟩
        · exact absurd h' hne
        · exact Or.inr (Or.inr ⟨h, hne⟩)
        · exact Or.inr (Or.inr ⟨h, hne'⟩)
  | hhdmPt i' j' =>
      intro heq
      have hfirst := h heq
      exact (h' (hfirst.trans heq)).trans hfirst
  | kernelPt _ => exact trivial
  | pml4 => exact hlast h h'
  | hhdmPdpt => exact hlast h h'
  | kernelPdpt => exact hlast h h'
  | kernelPd => exact hlast h h'

variable {roles roles' roles'' : List Role} {s s' s'' : Pager}

theorem getElem?_of_more {n : Nat} {role : Role} (h : roles <+: roles')
    (hn : roles[n]? = some role) : roles'[n]? = some role := by
  obtain ⟨more, rfl⟩ := h
  exact List.getElem?_append_left (List.getElem?_eq_some_iff.mp hn).1 ▸ hn

theorem Links.mono {role : Role} {e : Nat} (h : Links k roles role e) (hpre : roles <+: roles') :
    Links k roles' role e := by
  obtain ⟨n, hn, heq⟩ := h
  exact ⟨n, getElem?_of_more hpre hn, heq⟩

theorem EntryOk.mono {role : Role} {i e : Nat} (h : EntryOk k roles role i e)
    (hpre : roles <+: roles') : EntryOk k roles' role i e := by
  cases role with
  | pml4 => exact h.imp_right (Or.imp (And.imp_right fun hl => hl.mono hpre)
      (And.imp_right fun hl => hl.mono hpre))
  | hhdmPdpt => exact h.imp_right fun hl => hl.mono hpre
  | kernelPdpt => exact h.imp_right (And.imp_right fun hl => hl.mono hpre)
  | kernelPd => exact h.imp_right fun hl => hl.mono hpre
  | hhdmPd _ => exact h.imp_right (Or.imp_right fun hl => hl.mono hpre)
  | hhdmPt _ _ => exact h
  | kernelPt _ => exact h

/-! ## The tables -/

/-- Every table that has been taken from the pool holds what its role allows. -/
structure Tables (k : Platform) (roles : List Role) (s : Pager) : Prop where
  pool : k.PoolOk
  used : s.poolUsed = roles.length
  room : roles.length ≤ pagingPoolPages
  nx : s.memory.nxSupported = k.cpuNx
  entries : ∀ n role, roles[n]? = some role → ∀ i, EntryOk k roles role i (s.memory.mem (k.table n) i)

/-- More tables, and entries that have become what they may become. -/
structure Extends (k : Platform) (roles : List Role) (s : Pager) (roles' : List Role) (s' : Pager) :
    Prop where
  more : roles <+: roles'
  kept : ∀ n role, roles[n]? = some role → ∀ i,
    EntryKept k role i (s.memory.mem (k.table n) i) (s'.memory.mem (k.table n) i)
  pml4 : s'.memory.kernelPml4 = s.memory.kernelPml4
  pdptHhdm : s'.pdptHhdm = s.pdptHhdm
  pdKernel : s'.pdKernel = s.pdKernel
  limit : s'.hhdmLimit = s.hhdmLimit

theorem Extends.refl (roles : List Role) (s : Pager) : Extends k roles s roles s :=
  ⟨List.prefix_refl _, fun _ role _ i => EntryKept.refl role i _, rfl, rfl, rfl, rfl⟩

theorem Extends.trans (h : Extends k roles s roles' s') (h' : Extends k roles' s' roles'' s'') :
    Extends k roles s roles'' s'' where
  more := h.more.trans h'.more
  kept n role hn i := (h.kept n role hn i).trans (h'.kept n role (getElem?_of_more h.more hn) i)
  pml4 := h'.pml4.trans h.pml4
  pdptHhdm := h'.pdptHhdm.trans h.pdptHhdm
  pdKernel := h'.pdKernel.trans h.pdKernel
  limit := h'.limit.trans h.limit

theorem Tables.lt (h : Tables k roles s) {n : Nat} {role : Role} (hn : roles[n]? = some role) :
    n < pagingPoolPages :=
  lt_of_lt_of_le (List.getElem?_eq_some_iff.mp hn).1 h.room

theorem Tables.pageBase (h : Tables k roles s) {n : Nat} {role : Role}
    (hn : roles[n]? = some role) : PageBase (k.table n) :=
  h.pool.pageBase (h.lt hn)

/-- A store to one word of a table of the pool. -/
theorem Platform.PoolOk.store_mem (h : k.PoolOk) (s : Pager) (n i e n' i' : Nat) :
    (s.store (k.table n) i e).memory.mem (k.table n') i' =
      if n' = n ∧ i' = i then e else s.memory.mem (k.table n') i' := by
  unfold Pager.store
  by_cases hsame : n' = n ∧ i' = i
  · obtain ⟨rfl, rfl⟩ := hsame
    rw [if_pos ⟨rfl, rfl⟩]
    exact Memory.store_mem_same _ _ _ _
  · rw [if_neg hsame]
    refine Memory.store_mem_of_ne _ ?_
    rw [not_and_or] at hsame
    exact hsame.imp_left (fun hne heq => hne (h.table_inj heq))

theorem Tables.put (h : Tables k roles s) {n : Nat} {role : Role} (hn : roles[n]? = some role)
    {i e : Nat} (hok : EntryOk k roles role i e) : Tables k roles (s.store (k.table n) i e) := by
  refine ⟨h.pool, h.used, h.room, h.nx, fun n' role' hn' i' => ?_⟩
  rw [h.pool.store_mem]
  split
  next hsame =>
    obtain ⟨rfl, rfl⟩ := hsame
    rw [hn] at hn'
    cases hn'
    exact hok
  next => exact h.entries n' role' hn' i'

/-- A store that suits the role of the table. -/
theorem Tables.store (h : Tables k roles s) {n : Nat} {role : Role} (hn : roles[n]? = some role)
    {i e : Nat} (hok : EntryOk k roles role i e)
    (hkept : EntryKept k role i (s.memory.mem (k.table n) i) e) :
    Tables k roles (s.store (k.table n) i e) ∧ Extends k roles s roles (s.store (k.table n) i e) := by
  refine ⟨h.put hn hok, List.prefix_refl _, fun n' role' hn' i' => ?_, rfl, rfl, rfl, rfl⟩
  rw [h.pool.store_mem]
  split
  next hsame =>
    obtain ⟨rfl, rfl⟩ := hsame
    rw [hn] at hn'
    cases hn'
    exact hkept
  next => exact EntryKept.refl role' i' _

/-- The state after a table with the given words has been taken from the pool. -/
def Pager.fresh (s : Pager) (k : Platform) (words : Nat → Nat) : Pager :=
  { s with
    memory := { s.memory with mem := Function.update s.memory.mem (k.table s.poolUsed) words }
    poolUsed := s.poolUsed + 1 }

@[simp]
theorem Pager.fresh_poolUsed (s : Pager) (words : Nat → Nat) :
    (s.fresh k words).poolUsed = s.poolUsed + 1 :=
  rfl

@[simp]
theorem Pager.fresh_mem_self (s : Pager) (words : Nat → Nat) :
    (s.fresh k words).memory.mem (k.table s.poolUsed) = words := by
  unfold Pager.fresh
  exact Function.update_self _ _ _

theorem Pager.fresh_mem_of_ne (s : Pager) (words : Nat → Nat) {f : Nat}
    (h : f ≠ k.table s.poolUsed) : (s.fresh k words).memory.mem f = s.memory.mem f := by
  unfold Pager.fresh
  exact Function.update_of_ne h _ _

/-- A table that has a role is not the next one of the pool. -/
theorem Tables.fresh_mem (h : Tables k roles s) (words : Nat → Nat) {n : Nat} {role : Role}
    (hn : roles[n]? = some role) :
    (s.fresh k words).memory.mem (k.table n) = s.memory.mem (k.table n) := by
  have hlt := (List.getElem?_eq_some_iff.mp hn).1
  refine Pager.fresh_mem_of_ne s words ?_
  rw [h.used]
  exact fun heq => Nat.ne_of_lt hlt (h.pool.table_inj heq)

/-- One more table from the pool. -/
theorem Tables.append (h : Tables k roles s) (hroom : roles.length < pagingPoolPages) (role : Role)
    {words : Nat → Nat} (hok : ∀ i, EntryOk k (roles ++ [role]) role i (words i)) :
    Tables k (roles ++ [role]) (s.fresh k words) ∧
      Extends k roles s (roles ++ [role]) (s.fresh k words) := by
  have hmore : roles <+: roles ++ [role] := List.prefix_append _ _
  refine ⟨⟨h.pool, ?_, ?_, h.nx, fun n role' hn i => ?_⟩,
    ⟨hmore, fun n role' hn i => ?_, rfl, rfl, rfl, rfl⟩⟩
  · rw [Pager.fresh_poolUsed, List.length_append, List.length_singleton, h.used]
  · rw [List.length_append, List.length_singleton]
    exact hroom
  · by_cases hlt : n < roles.length
    · rw [List.getElem?_append_left hlt] at hn
      rw [h.fresh_mem words hn]
      exact (h.entries n role' hn i).mono hmore
    · have hlast : n = roles.length := by
        have := (List.getElem?_eq_some_iff.mp hn).1
        rw [List.length_append, List.length_singleton] at this
        omega
      subst hlast
      rw [List.getElem?_concat_length] at hn
      cases hn
      rw [← h.used, Pager.fresh_mem_self]
      exact hok i
  · rw [h.fresh_mem words hn]
    exact EntryKept.refl role' i _

end Mm
end Nyxis
