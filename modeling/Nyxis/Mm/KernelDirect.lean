import Nyxis.Mm.KernelAlias
import Nyxis.Mm.Seeding

/-!
# What the direct map lets the kernel write

{lit}`paging_init` takes the permission to write away from the pages of the image only, and it maps
a framebuffer that lies behind the memory of the machine.  So behind a successful initialisation
the direct map reaches every address of memory and of the framebuffer, and it may be written
everywhere but in the image.

Main results:

- Theorem {lit}`pagingInit_spares`: no page outside the image loses the permission to write.
- Theorem {lit}`pagingInit_framebuffer`: a framebuffer behind the limit is covered.
- Theorem {lit}`pagingInit_direct`: what an address of the direct map reaches.
- Theorem {lit}`Rooted.access_congr`: what an address reaches depends on the tables only.
- Theorem {lit}`FrameRun.kept`: allocations, releases and writes leave other memory alone.
-/

namespace Nyxis
namespace Mm

open Boot (MemDesc)

variable {k : Platform} {p : Plan} {roles : List Role} {s s₀ : Pager} {n q : Nat}

/-- A physical address of the image of the kernel, its boot section included. -/
def Platform.InImage (k : Platform) (q : Nat) : Prop :=
  pagingAlignDown k.bootStart pageSize ≤ q ∧ q < k.kernelEnd - kernelVmaBase

instance (k : Platform) (q : Nat) : Decidable (k.InImage q) :=
  inferInstanceAs (Decidable (_ ∧ _))

/-! ## Words that take no permission away -/

/-- If a word of a table takes away the permission to write a page, the page is one of the image. -/
def Harmless (k : Platform) (word : Nat) : Prop :=
  ∀ q nx, PageBase q → word = readonlyEntry q nx → k.InImage q

/-- All words of the tables in use are harmless. -/
def Spares (k : Platform) (s : Pager) : Prop :=
  ∀ n < s.poolUsed, ∀ l, Harmless k (s.memory.mem (k.table n) l)

/-- A computation leaves all words harmless. -/
abbrev KeepsSpared {α : Type} (k : Platform) (c : PagerM α) : Prop :=
  Eff.Moves (fun s s' => Spares k s → Spares k s') c

theorem harmless_zero : Harmless k 0 := by
  intro q nx hq heq
  exact absurd heq.symm (readonlyEntry_flags hq nx).1.ne_zero

/-- A word with the permission to write takes nothing away. -/
theorem harmless_of_rw {word : Nat} (h : hasFlag word pageRw = true) : Harmless k word := by
  intro q nx hq heq
  rw [heq, (readonlyEntry_flags hq nx).1.rw_eq] at h
  cases h

theorem harmless_linkEntry (table : Nat) : Harmless k (linkEntry table) := by
  refine harmless_of_rw ?_
  simp [linkEntry, hasFlag_rw, Nat.testBit_or, show pageRw.testBit 1 = true from rfl]

theorem harmless_hugeEntry (addr : Nat) (nx : Bool) : Harmless k (hugeEntry addr nx) := by
  refine harmless_of_rw ?_
  simp [hugeEntry, hasFlag_rw, Nat.testBit_or, show pageRw.testBit 1 = true from rfl]

theorem harmless_splitEntry (base : Nat) (nx : Bool) (i : Nat) :
    Harmless k (splitEntry base nx i) := by
  refine harmless_of_rw ?_
  simp [splitEntry, hasFlag_rw, Nat.testBit_or, show pageRw.testBit 1 = true from rfl]

/-- A word that leads to a page of the image. -/
theorem harmless_of_tableOf {word addr : Nat} (htable : tableOf word = addr) (himage : k.InImage addr) :
    Harmless k word := by
  intro q nx hq heq
  rw [heq, (readonlyEntry_flags hq nx).2] at htable
  rw [htable]
  exact himage

theorem Spares.store (h : Spares k s) {table idx word : Nat} (hword : Harmless k word) :
    Spares k (s.store table idx word) := by
  intro n hn l
  by_cases hsame : k.table n = table ∧ l = idx
  · obtain ⟨htable, rfl⟩ := hsame
    subst htable
    rw [show (s.store (k.table n) l word).memory.mem (k.table n) l = word from
      Memory.store_mem_same _ _ _ _]
    exact hword
  · rw [show (s.store table idx word).memory.mem (k.table n) l = s.memory.mem (k.table n) l from
      Memory.store_mem_of_ne _ (not_and_or.mp hsame)]
    exact h n hn l

/-- The limit of the direct map stands in no table. -/
theorem Spares.withLimit (h : Spares k s) (limit : Nat) : Spares k { s with hhdmLimit := limit } :=
  h

theorem Spares.fillSplit (h : Spares k s) (pt base : Nat) : Spares k (s.fillSplit pt base) := by
  intro n hn l
  by_cases hsame : k.table n = pt
  · have hword : (s.fillSplit pt base).memory.mem (k.table n) l =
        if l < entriesPerTable then splitEntry base s.memory.nxSupported l
          else s.memory.mem pt l := by
      rw [hsame, Pager.fillSplit]
      simp only [Function.update_self]
    rw [hword]
    split
    next => exact harmless_splitEntry _ _ _
    next => exact hsame ▸ h n hn l
  · rw [Pager.fillSplit_mem_of_ne hsame]
    exact h n hn l

/-! ## The parts of the initialisation -/

variable {α β : Type}

theorem KeepsSpared.bind {c : PagerM α} {f : α → PagerM β} (hc : KeepsSpared k c)
    (hf : ∀ a, KeepsSpared k (f a)) : KeepsSpared k (c >>= f) :=
  Eff.Moves.bind hc (fun _ _ _ hab hbc ha => hbc (hab ha)) hf

theorem KeepsSpared.run {c : PagerM α} (h : KeepsSpared k c) (hs : Spares k s) :
    Spares k (c s).2 :=
  h s hs

theorem KeepsSpared.of_reads {c : PagerM α} (h : Eff.Reads c) : KeepsSpared k c :=
  h.moves (fun _ hs => hs)

theorem KeepsSpared.gets (g : Pager → α) : KeepsSpared k (Eff.gets g) :=
  KeepsSpared.of_reads (Eff.reads_gets g)

theorem KeepsSpared.pure (a : α) : KeepsSpared k (pure a : PagerM α) :=
  KeepsSpared.of_reads (Eff.reads_pure a)

theorem KeepsSpared.fail (e : Nstatus) : KeepsSpared k (Eff.fail e : PagerM α) :=
  KeepsSpared.of_reads (Eff.reads_fail e)

theorem KeepsSpared.store (table idx : Nat) {word : Nat} (h : Harmless k word) :
    KeepsSpared k (Eff.modify (fun s => s.store table idx word)) :=
  fun _ hs => hs.store h

/-- A loop over addresses keeps what its body keeps at the addresses it visits. -/
theorem addrLoop_spares {body : Nat → PagerM Unit} {step first stop : Nat}
    (hbound : stop + step ≤ 2 ^ 64)
    (hbody : ∀ addr, first ≤ addr → addr < stop → addr % step = 0 → KeepsSpared k (body addr))
    (n : Nat) {addr : Nat} (hfirst : first ≤ addr) (haddr : addr % step = 0) :
    KeepsSpared k (addrLoop body step stop n addr) := by
  induction n generalizing addr with
  | zero => exact KeepsSpared.pure ()
  | succ n ih =>
      unfold addrLoop
      split
      next hlt =>
        have hnext : (addr + step) % 2 ^ 64 = addr + step := Nat.mod_eq_of_lt (by omega)
        rw [hnext]
        exact (hbody addr hfirst hlt haddr).bind
          (fun _ => ih (by omega) (by rw [Nat.add_mod_right]; exact haddr))
      next => exact KeepsSpared.pure ()

/-- A table from the pool is clear. -/
theorem allocTable_spares : KeepsSpared k (allocTable k) := by
  intro s hs
  by_cases hroom : s.poolUsed < pagingPoolPages
  · rw [allocTable_run hroom]
    intro n hn l
    by_cases hsame : k.table n = k.table s.poolUsed
    · rw [hsame, Pager.fresh_mem_self]
      exact harmless_zero
    · have hlt : n < s.poolUsed := by
        have hle : n < s.poolUsed + 1 := hn
        have hne : n ≠ s.poolUsed := fun heq => hsame (by rw [heq])
        omega
      rw [Pager.fresh_mem_of_ne s _ hsame]
      exact hs n hlt l
  · rw [allocTable_empty (Nat.not_lt.mp hroom)]
    exact hs

theorem linkedTable_spares (parent idx : Nat) : KeepsSpared k (linkedTable k parent idx) := by
  refine (KeepsSpared.gets _).bind (fun entry => ?_)
  split
  next => exact KeepsSpared.pure _
  next =>
    refine allocTable_spares.bind (fun t => ?_)
    cases t with
    | none => exact KeepsSpared.pure none
    | some table =>
        exact (KeepsSpared.store _ _ (harmless_linkEntry table)).bind
          (fun _ => KeepsSpared.pure (some table))

theorem hhdmPd_spares (i : Nat) : KeepsSpared k (hhdmPd k i) :=
  (KeepsSpared.gets Pager.pdptHhdm).bind (fun pdpt => linkedTable_spares pdpt i)

theorem mapRegion_spares (addr : Nat) : KeepsSpared k (mapRegion k addr) := by
  refine (hhdmPd_spares _).bind (fun t => ?_)
  cases t with
  | none => exact KeepsSpared.fail _
  | some pd =>
      intro s hs
      change Spares k (if hasFlag (s.memory.mem pd _) pagePresent then s else _)
      split
      next => exact hs
      next => exact hs.store (harmless_hugeEntry _ _)

theorem mapHhdm2m_spares (start stop : Nat) : KeepsSpared k (mapHhdm2m k start stop) := by
  have hspan : pdptSpanLimit = 0x8000000000 := rfl
  have hsize : pageSize2m = 0x200000 := rfl
  unfold mapHhdm2m
  split
  next => exact KeepsSpared.fail _
  next hstop =>
    exact addrLoop_spares (by omega) (fun addr _ _ _ => mapRegion_spares addr) _ (le_refl _)
      (Nat.mul_mod_left _ _)

theorem mapFramebuffer_spares (info : PagingInfo) (limit : Nat) :
    KeepsSpared k (mapFramebuffer k info limit) := by
  unfold mapFramebuffer
  dsimp only
  split
  next => exact mapHhdm2m_spares _ _
  next => exact KeepsSpared.pure ()

theorem hhdmPtFor_spares (addr : Nat) : KeepsSpared k (hhdmPtFor k addr) := by
  refine (hhdmPd_spares _).bind (fun t => ?_)
  cases t with
  | none => exact KeepsSpared.pure none
  | some pd =>
      refine (KeepsSpared.gets _).bind (fun pde => ?_)
      split
      next => exact KeepsSpared.pure _
      next =>
        refine allocTable_spares.bind (fun t => ?_)
        cases t with
        | none => exact KeepsSpared.pure none
        | some pt =>
            have hfill : KeepsSpared k (Eff.modify (fun s => s.fillSplit pt
                (pagingAlignDown addr pageSize2m))) := fun s hs => hs.fillSplit pt _
            exact hfill.bind (fun _ => (KeepsSpared.store _ _ (harmless_linkEntry pt)).bind
              (fun _ => KeepsSpared.pure (some pt)))

/-- Only pages of the image are made read-only. -/
theorem hhdmMakeReadonly_spares (hlink : k.Linked) :
    KeepsSpared k (hhdmMakeReadonly k k.bootStart (k.kernelEnd - kernelVmaBase)) := by
  have hsize : pageSize = 4096 := rfl
  have hvma : kernelVmaBase = 0xFFFFFFFF80000000 := rfl
  have hend := hlink.kernelEnd
  unfold hhdmMakeReadonly
  refine addrLoop_spares (by omega) (fun addr hlo hhi haddr => ?_) _ (le_refl _)
    (Nat.mul_mod_left _ _)
  refine (hhdmPtFor_spares addr).bind (fun t => ?_)
  cases t with
  | none => exact KeepsSpared.fail _
  | some pt =>
      intro s hs
      exact hs.store (harmless_of_tableOf (readonlyEntry_flags ⟨haddr, by omega⟩ _).2 ⟨hlo, hhi⟩)

theorem mapKernelPage_spares {virt flags : Nat} (haligned : virt % pageSize = 0)
    (hlower : kernelVmaBase ≤ virt) (hflags : flags &&& entryAddrMask = 0)
    (himage : k.InImage (virt - kernelVmaBase)) (hupper : virt < 2 ^ 64) :
    KeepsSpared k (mapKernelPage k virt flags) := by
  have hsize : pageSize = 4096 := rfl
  have hvma : kernelVmaBase = 0xFFFFFFFF80000000 := rfl
  have hbase : PageBase (virt - kernelVmaBase) := by
    constructor
    · rw [hsize] at haligned ⊢
      omega
    · omega
  refine (KeepsSpared.gets Pager.pdKernel).bind (fun pd => ?_)
  refine (linkedTable_spares _ _).bind (fun t => ?_)
  cases t with
  | none => exact KeepsSpared.fail _
  | some pt =>
      refine KeepsSpared.store _ _ (harmless_of_tableOf ?_ himage)
      rw [Nat.or_assoc]
      refine hbase.tableOf_or ?_
      rw [Nat.and_or_distrib_right, hflags, show pagePresent &&& entryAddrMask = 0 from by decide,
        Nat.or_self]

theorem mapSection_spares {flags first stop : Nat} {guard : Option Nat}
    (hstop : stop + pageSize ≤ 2 ^ 64) (hfirst : first % pageSize = 0)
    (hlower : kernelVmaBase ≤ first) (hflags : flags &&& entryAddrMask = 0)
    (himage : ∀ v, first ≤ v → v < stop → k.InImage (v - kernelVmaBase)) :
    KeepsSpared k (mapSection k flags guard first stop) := by
  unfold mapSection
  refine addrLoop_spares hstop (fun v hlo hhi hv => ?_) _ (le_refl first) hfirst
  split
  next => exact KeepsSpared.pure ()
  next =>
    exact mapKernelPage_spares hv (hlower.trans hlo) hflags (himage v hlo hhi) (by omega)

theorem nxBit_mask (nx : Bool) : nxBit nx &&& entryAddrMask = 0 := by
  cases nx <;> decide

theorem mapKernelImage_spares (hlink : k.Linked) : KeepsSpared k (mapKernelImage k) := by
  have hsize : pageSize = 4096 := rfl
  have hvma : kernelVmaBase = 0xFFFFFFFF80000000 := rfl
  have hboot := hlink.boot_text
  have htext := hlink.text
  have htext' := hlink.text_rodata
  have hrodata := hlink.rodata
  have hrodata' := hlink.rodata_data
  have hend := hlink.kernelEnd
  have halign : pagingAlignDown k.bootStart pageSize ≤ k.bootStart := Nat.div_mul_le_self _ _
  have himage : ∀ {first last v : Nat}, k.textStart ≤ first → last ≤ k.kernelEnd → first ≤ v →
      v < last → k.InImage (v - kernelVmaBase) := by
    intro first last v hfirst hlast hlo hhi
    exact ⟨by omega, by omega⟩
  have hdata : (pageRw ||| nxBit true) &&& entryAddrMask = 0 ∧
      (pageRw ||| nxBit false) &&& entryAddrMask = 0 := by decide
  have hround := hlink.alignUp_kernelEnd
  have hkernel := hlink.data
  intro s hs
  have hrest : ∀ nx, KeepsSpared k (do
      mapSection k 0 none k.textStart k.textEnd
      mapSection k (nxBit nx) none k.rodataStart k.rodataEnd
      mapSection k (pageRw ||| nxBit nx) (some k.bootStackGuard) k.dataStart
        (pagingAlignUp k.kernelEnd pageSize)) := by
    intro nx
    refine (mapSection_spares (by omega) hlink.text_aligned (by omega) (Nat.zero_and _)
      (fun v hlo hhi => himage (le_refl _) (by omega) hlo hhi)).bind (fun _ => ?_)
    refine (mapSection_spares (by omega) hlink.rodata_aligned (by omega) (nxBit_mask nx)
      (fun v hlo hhi => himage (by omega) (by omega) hlo hhi)).bind (fun _ => ?_)
    rw [hround]
    refine mapSection_spares (by omega) hlink.data_aligned (by omega) ?_
      (fun v hlo hhi => himage (by omega) (le_refl _) hlo hhi)
    cases nx with
    | true => exact hdata.1
    | false => exact hdata.2
  exact hrest s.memory.nxSupported s hs

theorem initTables_spares (s : Pager) : Spares k (initTables k s).2 := by
  have hglobals : ∀ pml4 pdpt pd, KeepsSpared k (Eff.modify (fun s : Pager => { s with
      memory := { s.memory with kernelPml4 := pml4 }
      pdptHhdm := pdpt
      pdKernel := pd })) := fun _ _ _ _ hs => hs
  unfold initTables
  rw [Eff.modify_bind_run]
  refine KeepsSpared.run ?_ (fun n hn => absurd hn (Nat.not_lt_zero n))
  refine allocTable_spares.bind (fun pml4 => allocTable_spares.bind (fun pdptHhdm =>
    allocTable_spares.bind (fun pdptKernel => allocTable_spares.bind (fun pdKernel => ?_))))
  split
  next =>
    exact (hglobals _ _ _).bind (fun _ => (KeepsSpared.store _ _ (harmless_linkEntry _)).bind
      (fun _ => (KeepsSpared.store _ _ (harmless_linkEntry _)).bind
        (fun _ => KeepsSpared.store _ _ (harmless_linkEntry _))))
  next => exact KeepsSpared.fail _

/-- No page outside the image loses the permission to write. -/
theorem pagingInit_spares (hlink : k.Linked) (info : PagingInfo) (s : Pager) :
    Spares k (pagingInit k (some info) s).2 := by
  obtain ⟨s₁, hrun, -⟩ :=
    initTables_run (p := ⟨fun _ => True, True⟩) hlink.pool (fun _ _ => trivial) s
  have hroot : Spares k s₁ := by
    have hfirst := initTables_spares (k := k) s
    rw [hrun] at hfirst
    exact hfirst
  unfold pagingInit
  dsimp only
  rw [Eff.bind_ok hrun, hlink.alignUp_size]
  generalize limitFor info.memmap = limit
  rw [Eff.modify_bind_run]
  refine KeepsSpared.run ?_ (hroot.withLimit limit)
  refine KeepsSpared.bind (mapHhdm2m_spares _ _) (fun _ => ?_)
  refine KeepsSpared.bind (mapFramebuffer_spares _ _) (fun _ => ?_)
  exact KeepsSpared.bind (hhdmMakeReadonly_spares hlink) (fun _ => mapKernelImage_spares hlink)

/-! ## Writing through the direct map -/

variable {v : Nat}

/-- A word of a page table of the direct map that stands for no page of the image. -/
theorem Rooted.access_hhdmPt_rw (h : Rooted k p roles s) (hspares : Spares k s)
    (hn : roles[n]? = some (.hhdmPt (tableIndex 2 v) (tableIndex 1 v)))
    (hout : ¬k.InImage (regionPage (tableIndex 2 v) (tableIndex 1 v) (tableIndex 0 v))) {r : Reach}
    (hr : access s.memory.mem 0 (k.table n) v = some r) : r.writable = true := by
  have hbase := pageBase_regionPage (tableIndex_lt 2 v) (tableIndex_lt 1 v) (tableIndex_lt 0 v)
  have hlt : n < s.poolUsed := by
    rw [h.tables.used]
    exact (List.getElem?_eq_some_iff.mp hn).1
  rcases h.tables.entries n _ hn (tableIndex 0 v) (tableIndex_lt 0 v) with hsplit | hreadonly
  · have hflags := (splitEntry_flags hbase k.cpuNx).1
    rw [← hsplit] at hflags
    rw [access_leaf hflags] at hr
    rw [← Option.some.inj hr]
  · exact absurd (hspares n hlt _ _ _ hbase hreadonly) hout

theorem Rooted.access_hhdmPd_rw (h : Rooted k p roles s) (hspares : Spares k s)
    (hn : roles[n]? = some (.hhdmPd (tableIndex 2 v)))
    (hout : ¬k.InImage (regionPage (tableIndex 2 v) (tableIndex 1 v) (tableIndex 0 v))) {r : Reach}
    (hr : access s.memory.mem 1 (k.table n) v = some r) : r.writable = true := by
  have hbase := pageBase_regionBase (tableIndex_lt 2 v) (tableIndex_lt 1 v)
  rcases h.tables.entries n _ hn (tableIndex 1 v) with hzero | hhuge | ⟨m, hm, hlink⟩
  · rw [access_absent hzero] at hr
    cases hr
  · have hflags := (hugeEntry_flags hbase k.cpuNx).1
    rw [← hhuge] at hflags
    rw [access_huge hflags] at hr
    rw [← Option.some.inj hr]
  · rw [access_link (h.tables.pageBase hm) hlink] at hr
    exact h.access_hhdmPt_rw hspares hm hout hr

/-- The first address of the page of an address. -/
theorem inImage_page (hlink : k.Linked) (v : Nat) :
    k.InImage (regionPage (tableIndex 2 v) (tableIndex 1 v) (tableIndex 0 v)) ↔
      k.InImage (v % 2 ^ 39) := by
  have hphys := regionPage_tableIndex v
  have hpage : regionPage (tableIndex 2 v) (tableIndex 1 v) (tableIndex 0 v) % pageSize = 0 :=
    (pageBase_regionPage (tableIndex_lt 2 v) (tableIndex_lt 1 v) (tableIndex_lt 0 v)).aligned
  have halign : pagingAlignDown k.bootStart pageSize % pageSize = 0 := Nat.mul_mod_left _ _
  have hend := hlink.kernelEnd_aligned
  have hsize : pageSize = 4096 := rfl
  have hvma : kernelVmaBase = 0xFFFFFFFF80000000 := rfl
  unfold Platform.InImage
  generalize pagingAlignDown k.bootStart pageSize = start at halign ⊢
  rw [hsize] at hphys hpage halign hend
  omega

/-- An address that is covered is reached, and it may be written unless it is one of the image. -/
theorem Rooted.access_covered_rw (h : Rooted k p roles s) (hlink : k.Linked) (hspares : Spares k s)
    (hq : q < 2 ^ 39) (hcovered : Covered k roles s (q / 2 ^ 30) (q / 2 ^ 21 % 512)) :
    ∃ r, s.access (hhdmBase + q) = some r ∧ r.phys = q ∧ (¬k.InImage q → r.writable = true) := by
  obtain ⟨htop, hmod, hindex₂, hindex₁, -⟩ := tableIndex_hhdmBase hq
  rw [← hindex₂, ← hindex₁] at hcovered
  obtain ⟨r, hr, hdirect, -⟩ := h.access_covered htop hcovered
  refine ⟨r, hr, hdirect.phys.trans hmod, fun hout => ?_⟩
  rw [← hmod, ← inImage_page hlink] at hout
  obtain ⟨n, hn, -⟩ := hcovered
  rw [h.access_direct htop, access_link (h.tables.pageBase hn) (h.owned n _ hn)] at hr
  exact h.access_hhdmPd_rw hspares hn hout hr

/-! ## A framebuffer behind the limit -/

variable {info : PagingInfo}

/-- An address of the framebuffer. -/
def PagingInfo.InFramebuffer (info : PagingInfo) (q : Nat) : Prop :=
  info.framebufferBase ≠ 0 ∧ info.framebufferBase ≤ q ∧
    q < info.framebufferBase + info.framebufferSize

theorem pagingAlignDown_idem (addr : Nat) :
    pagingAlignDown (pagingAlignDown addr pageSize2m) pageSize2m = pagingAlignDown addr pageSize2m := by
  have hsize : pageSize2m = 0x200000 := rfl
  unfold pagingAlignDown
  rw [hsize]
  omega

/-- What the part of the initialisation for the framebuffer maps. -/
theorem mapFramebuffer_covers (h : Rooted k ⟨fun _ => True, True⟩ roles s) (info : PagingInfo)
    (limit : Nat) (hfits : info.framebufferBase + info.framebufferSize ≤ 2 ^ 52) :
    Builds k ⟨fun _ => True, True⟩ roles s (mapFramebuffer k info limit) (fun _ roles' s' =>
      limit < info.framebufferBase + info.framebufferSize → ∀ q, info.InFramebuffer q →
        q < 2 ^ 39 ∧ Covered k roles' s' (q / 2 ^ 30) (q / 2 ^ 21 % 512)) := by
  have hsize : pageSize2m = 0x200000 := rfl
  have hspan : pdptSpanLimit = 0x8000000000 := rfl
  have hwrap : (info.framebufferBase + info.framebufferSize) % 2 ^ 64 =
      info.framebufferBase + info.framebufferSize := Nat.mod_eq_of_lt (by omega)
  unfold mapFramebuffer
  dsimp only
  rw [hwrap]
  split
  next hfar =>
    obtain ⟨stop, hstop⟩ : ∃ stop, stop = pagingAlignUp
      (info.framebufferBase + info.framebufferSize) pageSize2m := ⟨_, rfl⟩
    have hround : info.framebufferBase + info.framebufferSize ≤ stop := by
      rw [hstop, hsize]
      unfold pagingAlignUp
      omega
    by_cases hfit : stop ≤ pdptSpanLimit
    · refine Builds.mono (mapHhdm2m_builds h _ (fun _ _ _ => trivial) (fun _ => trivial)) ?_
      intro _ roles' s' _ hcovered _ q hq
      obtain ⟨-, hlo, hhi⟩ := hq
      refine ⟨by omega, hcovered _ _ (Nat.mod_lt _ (by decide)) ?_ ?_⟩
      · rw [pagingAlignDown_idem]
        unfold pagingAlignDown regionBase
        rw [hsize]
        omega
      · rw [← hstop]
        unfold regionBase
        omega
    · rw [← hstop]
      unfold mapHhdm2m
      rw [if_pos (Nat.not_le.mp hfit)]
      exact Builds.fail h (Or.inr trivial)
  next hnear =>
    refine Builds.pure h (fun hlimit q hq => ?_)
    obtain ⟨hne, hlo, hhi⟩ := hq
    exact absurd ⟨hne, by omega, by omega, by omega⟩ hnear

/-- A successful initialisation covers a framebuffer behind its limit. -/
theorem pagingInit_framebuffer (hlink : k.Linked)
    (hfits : info.framebufferBase + info.framebufferSize ≤ 2 ^ 52)
    (hrun : pagingInit k (some info) s₀ = (.ok (), s)) :
    ∃ roles, Rooted k ⟨fun _ => True, True⟩ roles s ∧
      (limitFor info.memmap < info.framebufferBase + info.framebufferSize →
        ∀ q, info.InFramebuffer q → q < 2 ^ 39 ∧ Covered k roles s (q / 2 ^ 30) (q / 2 ^ 21 % 512)) := by
  have hspan : pdptSpanLimit = 0x8000000000 := rfl
  have hmax : hhdmMaxLimit = 0x1000000000 := rfl
  have hend := hlink.kernelEnd
  obtain ⟨-, hupper⟩ := limitFor_bounds info.memmap
  obtain ⟨s₁, hinit, h₁⟩ :=
    initTables_run (p := ⟨fun _ => True, True⟩) hlink.pool (fun _ _ => trivial) s₀
  unfold pagingInit at hrun
  dsimp only at hrun
  rw [Eff.bind_ok hinit, Eff.modify_bind_run, hlink.alignUp_size] at hrun
  generalize limitFor info.memmap = limit at hrun hupper ⊢
  have hbuilds : Builds k ⟨fun _ => True, True⟩ rootRoles { s₁ with hhdmLimit := limit } (do
      mapHhdm2m k 0 limit
      mapFramebuffer k info limit
      hhdmMakeReadonly k k.bootStart (k.kernelEnd - kernelVmaBase)
      mapKernelImage k) (fun _ roles s' => limit < info.framebufferBase + info.framebufferSize →
        ∀ q, info.InFramebuffer q →
          q < 2 ^ 39 ∧ Covered k roles s' (q / 2 ^ 30) (q / 2 ^ 21 % 512)) := by
    refine Builds.bind (mapHhdm2m_builds (h₁.withLimit limit) 0 (fun _ _ _ => trivial)
      (fun hbig => absurd hbig (by omega))) (fun _ roles₂ s₂ h₂ hext₂ _ => ?_)
    refine Builds.bind (mapFramebuffer_covers h₂ info limit hfits)
      (fun _ roles₃ s₃ h₃ hext₃ hcovers => ?_)
    refine Builds.bind (hhdmMakeReadonly_builds h₃ k.bootStart (by omega)
      (fun _ _ _ => ⟨trivial, trivial⟩)) (fun _ roles₄ s₄ h₄ hext₄ _ => ?_)
    refine Builds.mono (mapKernelImage_builds hlink h₄ (fun _ _ _ => trivial)) ?_
    intro _ roles₅ s₅ hext₅ _ hfar q hq
    obtain ⟨hlt, hcovered⟩ := hcovers hfar q hq
    exact ⟨hlt, (hcovered.extends hext₄).extends hext₅⟩
  unfold Builds Eff.Post at hbuilds
  rw [hrun] at hbuilds
  obtain ⟨roles, hrooted, -, hcovers⟩ := hbuilds
  exact ⟨roles, hrooted, hcovers⟩

/-- What a successful initialisation has built. -/
theorem pagingInit_whole (hlink : k.Linked) (hrun : pagingInit k (some info) s₀ = (.ok (), s)) :
    ∃ roles, Built k ⟨fun _ => True, True⟩ info roles s := by
  have hsuits : Plan.Suits ⟨fun _ => True, True⟩ k info :=
    ⟨fun _ _ => trivial, fun _ _ => trivial, fun _ _ => trivial, fun _ => trivial,
      fun _ _ => trivial, fun _ _ _ => trivial⟩
  have hpost := pagingInit_built hlink hsuits s₀
  unfold Eff.Post at hpost
  rw [hrun] at hpost
  obtain ⟨roles, -, hbuilt⟩ := hpost
  exact ⟨roles, hbuilt⟩

/-- Behind a successful initialisation the direct map reaches memory up to its limit and a
framebuffer at addresses of the machine, and it may be written everywhere but in the image. -/
theorem pagingInit_direct (hlink : k.Linked) (hrun : pagingInit k (some info) s₀ = (.ok (), s))
    (hq : q < s.hhdmLimit ∨
      info.InFramebuffer q ∧ info.framebufferBase + info.framebufferSize ≤ 2 ^ 52) :
    q < 2 ^ 39 ∧ ∃ r, s.access (hhdmBase + q) = some r ∧ r.phys = q ∧
      (¬k.InImage q → r.writable = true) := by
  have hspares : Spares k s := by
    have hkeeps := pagingInit_spares hlink info s₀
    rw [hrun] at hkeeps
    exact hkeeps
  obtain ⟨roles, hbuilt⟩ := pagingInit_whole hlink hrun
  by_cases hnear : q < s.hhdmLimit
  · obtain ⟨hlt, hcovered⟩ := hbuilt.covered_at hnear
    exact ⟨hlt, hbuilt.rooted.access_covered_rw hlink hspares hlt hcovered⟩
  · obtain ⟨hin, hfits⟩ := hq.resolve_left hnear
    obtain ⟨roles', hrooted, hcovers⟩ := pagingInit_framebuffer hlink hfits hrun
    have hfar : limitFor info.memmap < info.framebufferBase + info.framebufferSize := by
      rw [← hbuilt.limit]
      exact lt_of_le_of_lt (Nat.not_lt.mp hnear) hin.2.2
    obtain ⟨hlt, hcovered⟩ := hcovers hfar q hin
    exact ⟨hlt, hrooted.access_covered_rw hlink hspares hlt hcovered⟩

/-! ## Memory outside the tables -/

/-- What an address reaches depends on the tables of the pool only. -/
theorem Rooted.access_congr (h : Rooted k p roles s) {mem : Nat → Nat → Nat}
    (hsame : ∀ n < pagingPoolPages, mem (k.table n) = s.memory.mem (k.table n)) (v : Nat) :
    access mem 3 s.memory.kernelPml4 v = s.access v := by
  have hword : ∀ {n : Nat} {role : Role}, roles[n]? = some role →
      mem (k.table n) = s.memory.mem (k.table n) := fun hn => hsame _ (h.tables.lt hn)
  have hlast : ∀ {n : Nat} {role : Role}, roles[n]? = some role →
      access mem 0 (k.table n) v = access s.memory.mem 0 (k.table n) v := by
    intro n role hn
    simp only [access, hword hn]
  have hstep : ∀ {level n : Nat} {role : Role}, roles[n]? = some role →
      (∀ e, e = s.memory.mem (k.table n) (tableIndex (level + 1) v) → e ≠ 0 →
        (hasFlag e pageHuge = true ∧ level + 1 < 3) ∨
          access mem level (tableOf e) v = access s.memory.mem level (tableOf e) v) →
      access mem (level + 1) (k.table n) v = access s.memory.mem (level + 1) (k.table n) v := by
    intro level n role hn hentry
    simp only [access, hword hn]
    generalize hword' : s.memory.mem (k.table n) (tableIndex (level + 1) v) = e
    by_cases hzero : e = 0
    · subst hzero
      rfl
    · rcases hentry e hword'.symm hzero with ⟨hhuge, hlevel⟩ | heq
      · simp [hhuge, hlevel]
      · rw [heq]
  have hlinked : ∀ {level n : Nat} {role : Role}, roles[n]? = some role →
      access mem level (k.table n) v = access s.memory.mem level (k.table n) v →
      access mem level (tableOf (linkEntry (k.table n))) v =
        access s.memory.mem level (tableOf (linkEntry (k.table n))) v := by
    intro level n role hn heq
    rw [(linkEntry_flags (h.tables.pageBase hn)).2]
    exact heq
  have hdirect : ∀ {n i : Nat}, roles[n]? = some (.hhdmPd i) →
      access mem 1 (k.table n) v = access s.memory.mem 1 (k.table n) v := by
    intro n i hn
    refine hstep hn (fun e he hne => ?_)
    rcases h.tables.entries n _ hn (tableIndex 1 v) with hzero | hhuge | ⟨m, hm, hlink⟩
    · exact absurd (he.trans hzero) hne
    · rw [he, hhuge]
      exact Or.inl ⟨hasFlag_hugeEntry_huge _ _, by decide⟩
    · rw [he, hlink]
      exact Or.inr (hlinked hm (hlast hm))
  have himage : ∀ {n : Nat}, roles[n]? = some .kernelPd →
      access mem 1 (k.table n) v = access s.memory.mem 1 (k.table n) v := by
    intro n hn
    refine hstep hn (fun e he hne => ?_)
    rcases h.tables.entries n _ hn (tableIndex 1 v) with hzero | ⟨m, hm, hlink⟩
    · exact absurd (he.trans hzero) hne
    · rw [he, hlink]
      exact Or.inr (hlinked hm (hlast hm))
  rw [Pager.access, h.pml4]
  refine hstep h.top (fun e he hne => ?_)
  rcases h.tables.entries 0 _ h.top (tableIndex 3 v) with
    hzero | ⟨-, n, hn, hlink⟩ | ⟨-, n, hn, hlink⟩
  · exact absurd (he.trans hzero) hne
  · rw [he, hlink]
    refine Or.inr (hlinked hn (hstep hn (fun e' he' hne' => ?_)))
    rcases h.tables.entries n _ hn (tableIndex 2 v) with hzero | ⟨m, hm, hlink'⟩
    · exact absurd (he'.trans hzero) hne'
    · rw [he', hlink']
      exact Or.inr (hlinked hm (hdirect hm))
  · rw [he, hlink]
    refine Or.inr (hlinked hn (hstep hn (fun e' he' hne' => ?_)))
    rcases h.tables.entries n _ hn (tableIndex 2 v) with hzero | ⟨-, m, hm, hlink'⟩
    · exact absurd (he'.trans hzero) hne'
    · rw [he', hlink']
      exact Or.inr (hlinked hm (himage hm))

/-- The memory that a computation leaves alone, and the table of the kernel. -/
structure KeepsFrame (f : Nat) (m m' : Memory) : Prop where
  mem : m'.mem f = m.mem f
  kernelPml4 : m'.kernelPml4 = m.kernelPml4

theorem KeepsFrame.trans {f : Nat} {m m' m'' : Memory} (h : KeepsFrame f m m')
    (h' : KeepsFrame f m' m'') : KeepsFrame f m m'' :=
  ⟨h'.mem.trans h.mem, h'.kernelPml4.trans h.kernelPml4⟩

theorem keepsFrame_pushFree {m : Memory} {f g : Nat} (h : f ≠ g) : KeepsFrame f m (pushFree m g) :=
  ⟨pushFree_mem_of_ne h, rfl⟩

theorem keepsFrame_popFree {m : Memory} {f : Nat} (h : f ≠ m.freeHead) :
    KeepsFrame f m (popFree m) :=
  ⟨Memory.clear_mem_of_ne m h, rfl⟩

theorem keepsFrame_pushAll {m : Memory} {f : Nat} {frames : List Nat} (h : f ∉ frames) :
    KeepsFrame f m (pushAll m frames) := by
  induction frames generalizing m with
  | nil => exact ⟨rfl, rfl⟩
  | cons g frames ih =>
      rw [List.mem_cons, not_or] at h
      exact (keepsFrame_pushFree h.1).trans (ih h.2)

theorem pushAll_freeCount (m : Memory) (frames : List Nat) :
    (pushAll m frames).freeCount = m.freeCount + UInt64.ofNat frames.length := by
  induction frames generalizing m with
  | nil => exact (UInt64.add_zero _).symm
  | cons g frames ih =>
      change (pushAll (pushFree m g) frames).freeCount = _
      rw [ih, List.length_cons, UInt64.ofNat_add, pushFree, UInt64.add_assoc,
        UInt64.add_comm 1]
      rfl

/-- Whole pages below a limit are not many. -/
theorem length_frames_lt {frames : List Nat} (hnodup : frames.Nodup) {limit : Nat}
    (hlimit : limit ≤ hhdmMaxLimit) (hpages : ∀ f ∈ frames, f % pageSize = 0 ∧ f < limit) :
    frames.length < 2 ^ 64 := by
  have hsize : pageSize = 4096 := rfl
  have hmax : hhdmMaxLimit = 0x1000000000 := rfl
  have hinj : (frames.map (fun f => f / pageSize)).Nodup := by
    refine hnodup.map_on (fun f hf g hg heq => ?_)
    have hf' := (hpages f hf).1
    have hg' := (hpages g hg).1
    rw [hsize] at hf' hg' heq
    omega
  have hsub : frames.map (fun f => f / pageSize) ⊆ List.range (2 ^ 24) := by
    intro n hn
    obtain ⟨f, hf, rfl⟩ := List.mem_map.mp hn
    have hlt := (hpages f hf).2
    rw [List.mem_range, hsize]
    omega
  have hlen := (List.subperm_of_subset hinj hsub).length_le
  rw [List.length_map, List.length_range] at hlen
  omega

/-- The memory behind {lit}`pfa_init`. -/
theorem pfaInit_memory {b : BootRanges} {descs : List MemDesc} {t t' : Pfa}
    (hfits : ∀ d ∈ descs, d.physStart < 2 ^ 64) (hrun : pfaInit (some descs) b t = (.ok (), t')) :
    t'.memory = pushAll { t.memory with freeHead := 0, freeCount := 0 }
      (descs.flatMap (framesOf b)) := by
  rw [← seedDescs_eq b _ hfits]
  rw [pfaInit, Eff.gets_bind_run] at hrun
  dsimp only [id] at hrun
  split at hrun
  next => cases hrun
  next =>
    cases hrun
    rfl

/-- One call changes frames that are free or held, and no others. -/
theorem Holding.Accounts.step_kept {t : Holding} {all free : List Nat} (h : t.Accounts all free)
    (c : FrameCall) (hallowed : c.Allowed t) {f : Nat} (hf : f ∉ all) :
    KeepsFrame f t.memory (t.step c).memory := by
  have hfree : f ∉ free := fun hmem => hf (h.perm.subset (List.mem_append_left _ hmem))
  have hheld : f ∉ t.held := fun hmem => hf (h.perm.subset (List.mem_append_right _ hmem))
  cases c with
  | alloc =>
      rw [Holding.step]
      cases free with
      | nil =>
          rw [pfaAlloc_nil h.allocator]
          exact ⟨rfl, rfl⟩
      | cons g gs =>
          rw [pfaAlloc_cons h.allocator]
          refine keepsFrame_popFree ?_
          rw [h.list.1]
          exact (List.mem_cons.not.mp hfree ∘ Or.inl)
  | free phys =>
      rw [Holding.step, pfaFree]
      split
      next => exact ⟨rfl, rfl⟩
      next => exact keepsFrame_pushFree (fun heq => hheld (heq ▸ hallowed))
  | write phys idx word =>
      refine ⟨Memory.store_mem_frame _ (fun heq => hheld (heq ▸ hallowed)), rfl⟩

/-- A run changes the frames that it started with, and no others. -/
theorem FrameRun.kept {m : Memory} {all : List Nat} (hlist : FreeList m.mem m.freeHead all)
    (hcount : m.freeCount.toNat = all.length) {t : Holding} (h : FrameRun m t) {f : Nat}
    (hf : f ∉ all) : KeepsFrame f m t.memory := by
  induction h with
  | start => exact ⟨rfl, rfl⟩
  | step c hrun hallowed ih =>
      obtain ⟨free, hfree⟩ := hrun.accounts hlist hcount
      exact ih.trans (hfree.step_kept c hallowed hf)

end Mm
end Nyxis
