import Nyxis.Mm.KernelBuild

/-!
# The aliases of the memory of the kernel

The tables of {lit}`paging_init` map the image of the kernel twice, at its own addresses and in the
direct map of physical memory.  This module walks the tables as the processor does and reads off
what an address reaches and what may be done there.

Main results:

- Definition {lit}`access`: the page walk with the permissions of every level.
- Theorem {lit}`kernel_write_xor_execute`: no address may be both written and executed, the image
  is read-only in the direct map, the code cannot be written through any address, and the direct
  map is complete.
- Theorem {lit}`pagingInit_succeeds`: the pool is large enough for an image of 128 MiB.
-/

namespace Nyxis
namespace Mm

/-! ## The page walk -/

/-- What an address reaches, and what the kernel may do there. -/
structure Reach where
  phys : Nat
  writable : Bool
  executable : Bool

/-- The page walk: an address may be written when the entries of all levels allow it, and executed
when none of them forbids it. -/
def access (mem : Nat → Nat → Nat) : (level table v : Nat) → Option Reach
  | 0, table, v =>
      let entry := mem table (tableIndex 0 v)
      if isPresent entry then
        some ⟨tableOf entry + v % pageSize, hasFlag entry pageRw, !hasFlag entry pageNx⟩
      else none
  | level + 1, table, v =>
      let entry := mem table (tableIndex (level + 1) v)
      if !isPresent entry then none
      else if level + 1 < 3 && hasFlag entry pageHuge then
        some ⟨hugeFrame (level + 1) entry v + v % pageSize, hasFlag entry pageRw,
          !hasFlag entry pageNx⟩
      else
        (access mem level (tableOf entry) v).map (fun r =>
          { r with
            writable := r.writable && hasFlag entry pageRw
            executable := r.executable && !hasFlag entry pageNx })

/-- What an address reaches in the kernel's address space. -/
def Pager.access (s : Pager) (v : Nat) : Option Reach :=
  Mm.access s.memory.mem 3 s.memory.kernelPml4 v

variable {mem : Nat → Nat → Nat} {table v : Nat}

theorem access_leaf {rw huge nx : Bool}
    (h : HasFlags (mem table (tableIndex 0 v)) rw huge nx) :
    access mem 0 table v =
      some ⟨tableOf (mem table (tableIndex 0 v)) + v % pageSize, rw, !nx⟩ := by
  simp only [access, h.present, h.rw_eq, h.nx_eq, if_true]

/-- An entry that leads to a table takes nothing away. -/
theorem access_link {level q : Nat} (hq : PageBase q)
    (h : mem table (tableIndex (level + 1) v) = linkEntry q) :
    access mem (level + 1) table v = access mem level q v := by
  obtain ⟨hflags, htable⟩ := linkEntry_flags hq
  simp only [access, h, hflags.present, hflags.rw_eq, hflags.huge_eq, hflags.nx_eq, htable,
    Bool.not_true, Bool.false_eq_true, if_false, Bool.and_false, Bool.and_true, Bool.not_false]
  exact Option.map_id'

theorem access_absent {level : Nat} (h : mem table (tableIndex level v) = 0) :
    access mem level table v = none := by
  have habsent : isPresent 0 = false := rfl
  cases level with
  | zero => simp only [access, h, habsent, Bool.false_eq_true, if_false]
  | succ level => simp only [access, h, habsent, Bool.not_false, if_true]

theorem access_huge {nx : Bool}
    (h : HasFlags (mem table (tableIndex 1 v)) true true nx) :
    access mem 1 table v =
      some ⟨hugeFrame 1 (mem table (tableIndex 1 v)) v + v % pageSize, true, !nx⟩ := by
  simp only [access, h.present, h.rw_eq, h.huge_eq, h.nx_eq, Bool.not_true, Bool.false_eq_true,
    if_false, Nat.reduceAdd, Nat.reduceLT, decide_true, Bool.and_true, if_true]

/-! ## The direct map -/

variable {k : Platform} {p : Plan} {roles : List Role} {s : Pager} {n : Nat}

theorem pageBase_regionPage {i j l : Nat} (hi : i < 512) (hj : j < 512) (hl : l < 512) :
    PageBase (regionPage i j l) := by
  have hsize : pageSize = 4096 := rfl
  unfold regionPage regionBase
  constructor
  · rw [hsize]
    omega
  · rw [hsize]
    omega

theorem pageBase_regionBase {i j : Nat} (hi : i < 512) (hj : j < 512) :
    PageBase (regionBase i j) := by
  have hpage := pageBase_regionPage hi hj (l := 0) (by omega)
  rw [regionPage, Nat.zero_mul, Nat.add_zero] at hpage
  exact hpage

/-- The page of an address of the direct map. -/
theorem regionPage_tableIndex (v : Nat) :
    regionPage (tableIndex 2 v) (tableIndex 1 v) (tableIndex 0 v) + v % pageSize = v % 2 ^ 39 := by
  have hsize : pageSize = 4096 := rfl
  simp only [regionPage, regionBase, tableIndex_eq, hsize]
  omega

/-- The place of an address of the direct map in its region. -/
theorem regionBase_tableIndex (v : Nat) :
    regionBase (tableIndex 2 v) (tableIndex 1 v) / 2 ^ (12 + 9 * 1) * 2 ^ (12 + 9 * 1) +
      v % 2 ^ (12 + 9 * 1) / pageSize * pageSize + v % pageSize = v % 2 ^ 39 := by
  have hsize : pageSize = 4096 := rfl
  simp only [regionBase, tableIndex_eq, hsize]
  omega

/-- What an address of the direct map reaches. -/
structure DirectReach (k : Platform) (v : Nat) (r : Reach) : Prop where
  phys : r.phys = v % 2 ^ 39
  executable : r.executable = !k.cpuNx

/-- The last step of a walk through a region that has been split. -/
theorem Rooted.access_hhdmPt (h : Rooted k p roles s)
    (hn : roles[n]? = some (.hhdmPt (tableIndex 2 v) (tableIndex 1 v))) :
    ∃ r, access s.memory.mem 0 (k.table n) v = some r ∧ DirectReach k v r ∧
      (Readonly k roles s (tableIndex 2 v) (tableIndex 1 v) (tableIndex 0 v) →
        r.writable = false) := by
  have hbase := pageBase_regionPage (tableIndex_lt 2 v) (tableIndex_lt 1 v) (tableIndex_lt 0 v)
  have hphys := regionPage_tableIndex v
  rcases h.tables.entries n _ hn (tableIndex 0 v) (tableIndex_lt 0 v) with hsplit | hreadonly
  · obtain ⟨hflags, htable⟩ := splitEntry_flags hbase k.cpuNx
    rw [← hsplit] at hflags htable
    refine ⟨_, access_leaf hflags, ⟨?_, rfl⟩, fun hcon => ?_⟩
    · dsimp only
      rw [htable]
      exact hphys
    · obtain ⟨m, hm, hentry⟩ := hcon
      rw [h.role_inj hn hm] at hflags
      have hrw := hflags.rw_eq
      rw [hentry, (readonlyEntry_flags hbase k.cpuNx).1.rw_eq] at hrw
      cases hrw
  · obtain ⟨hflags, htable⟩ := readonlyEntry_flags hbase k.cpuNx
    rw [← hreadonly] at hflags htable
    refine ⟨_, access_leaf hflags, ⟨?_, rfl⟩, fun _ => rfl⟩
    dsimp only
    rw [htable]
    exact hphys

/-- The walk through a page directory of the direct map. -/
theorem Rooted.access_hhdmPd (h : Rooted k p roles s)
    (hn : roles[n]? = some (.hhdmPd (tableIndex 2 v)))
    (hne : s.memory.mem (k.table n) (tableIndex 1 v) ≠ 0) :
    ∃ r, access s.memory.mem 1 (k.table n) v = some r ∧ DirectReach k v r ∧
      (Readonly k roles s (tableIndex 2 v) (tableIndex 1 v) (tableIndex 0 v) →
        r.writable = false) := by
  have hbase := pageBase_regionBase (tableIndex_lt 2 v) (tableIndex_lt 1 v)
  rcases h.tables.entries n _ hn (tableIndex 1 v) with hzero | hhuge | ⟨m, hm, hlink⟩
  · exact absurd hzero hne
  · obtain ⟨hflags, htable⟩ := hugeEntry_flags hbase k.cpuNx
    rw [← hhuge] at hflags htable
    refine ⟨_, access_huge hflags, ⟨?_, rfl⟩, fun hcon => ?_⟩
    · dsimp only
      rw [hugeFrame, htable]
      exact regionBase_tableIndex v
    · -- a page that may not be written lies in a region that has been split
      obtain ⟨m, hm, -⟩ := hcon
      obtain ⟨n', hn', hlink⟩ := h.owned m _ hm
      rw [h.role_inj hn' hn, hhuge] at hlink
      exact absurd hlink.symm (linkEntry_ne_huge (h.tables.pageBase hm) _ _)
  · obtain ⟨r, hr, hdirect, hreadonly⟩ := h.access_hhdmPt hm
    refine ⟨r, ?_, hdirect, hreadonly⟩
    rw [access_link (h.tables.pageBase hm) hlink]
    exact hr

/-- A walk through the direct map starts at its own table. -/
theorem Rooted.access_direct (h : Rooted k p roles s) (hv : tableIndex 3 v = hhdmPml4Index) :
    s.access v = access s.memory.mem 2 (k.table 1) v := by
  rw [Pager.access, h.pml4]
  refine access_link (h.tables.pageBase h.hhdm) ?_
  change s.memory.mem (k.table 0) (tableIndex 3 v) = _
  rw [hv]
  exact h.link

/-- A region that is covered is reached. -/
theorem Rooted.access_covered (h : Rooted k p roles s) (hv : tableIndex 3 v = hhdmPml4Index)
    (hcovered : Covered k roles s (tableIndex 2 v) (tableIndex 1 v)) :
    ∃ r, s.access v = some r ∧ DirectReach k v r ∧
      (Readonly k roles s (tableIndex 2 v) (tableIndex 1 v) (tableIndex 0 v) →
        r.writable = false) := by
  obtain ⟨n, hn, hne⟩ := hcovered
  rw [h.access_direct hv, access_link (h.tables.pageBase hn) (h.owned n _ hn)]
  exact h.access_hhdmPd hn hne

/-- Whatever is reached through the direct map is covered. -/
theorem Rooted.access_direct_some (h : Rooted k p roles s) (hv : tableIndex 3 v = hhdmPml4Index)
    {r : Reach} (hr : s.access v = some r) :
    DirectReach k v r ∧
      (Readonly k roles s (tableIndex 2 v) (tableIndex 1 v) (tableIndex 0 v) →
        r.writable = false) := by
  have hcovered : Covered k roles s (tableIndex 2 v) (tableIndex 1 v) := by
    rw [h.access_direct hv] at hr
    rcases h.tables.entries 1 _ h.hhdm (tableIndex 2 v) with hzero | ⟨n, hn, hlink⟩
    · rw [access_absent hzero] at hr
      cases hr
    · refine ⟨n, hn, fun hzero => ?_⟩
      rw [access_link (h.tables.pageBase hn) hlink, access_absent hzero] at hr
      cases hr
  obtain ⟨r', hr', hdirect⟩ := h.access_covered hv hcovered
  rw [hr] at hr'
  rw [Option.some.inj hr']
  exact hdirect

/-! ## The image -/

/-- What an address of the image reaches is what the entry of its page allows. -/
structure ImageReach (k : Platform) (v : Nat) (r : Reach) : Prop where
  entry : ∃ e rw nx, ImageEntry k (imagePage (tableIndex 1 v) (tableIndex 0 v)) e ∧
    hasFlag e pageRw = rw ∧ hasFlag e pageNx = nx ∧ r.writable = rw ∧ r.executable = !nx
  phys : r.phys = imagePage (tableIndex 1 v) (tableIndex 0 v) + v % pageSize

theorem pageBase_imagePage {j l : Nat} (hj : j < 512) (hl : l < 512) :
    PageBase (imagePage j l) := by
  have hpage := pageBase_regionPage (i := 0) (by omega) hj hl
  rw [regionPage, regionBase, Nat.zero_mul, Nat.zero_add] at hpage
  exact hpage

/-- The flags of the three kinds of pages of the image. -/
theorem ImageEntry.flags {q e : Nat} (h : ImageEntry k q e) (hq : PageBase q) :
    isPresent e = true ∧ tableOf e = q ∧
      ((hasFlag e pageRw = false ∧ InSection k.textStart k.textEnd q) ∨
        (hasFlag e pageRw = false ∧ hasFlag e pageNx = k.cpuNx) ∨
        (hasFlag e pageNx = k.cpuNx ∧
          InSection k.dataStart (pagingAlignUp k.kernelEnd pageSize) q)) := by
  have hflags : ∀ flags : Nat, flags.testBit 0 = true → flags &&& entryAddrMask = 0 →
      isPresent (q ||| flags) = true ∧ tableOf (q ||| flags) = q ∧
        hasFlag (q ||| flags) pageRw = flags.testBit 1 ∧
        hasFlag (q ||| flags) pageNx = flags.testBit 63 := by
    intro flags hpresent hmask
    have hall := hq.hasFlags hpresent
    exact ⟨hall.present, hq.tableOf_or hmask, hall.rw_eq, hall.nx_eq⟩
  cases h with
  | text hin =>
      rw [Nat.or_assoc]
      obtain ⟨hpresent, htable, hrw, -⟩ := hflags (0 ||| pagePresent) rfl (by decide)
      exact ⟨hpresent, htable, Or.inl ⟨hrw, hin⟩⟩
  | rodata hin =>
      rw [Nat.or_assoc]
      cases hnx : k.cpuNx with
      | false =>
          obtain ⟨hpresent, htable, hrw, hexec⟩ :=
            hflags (nxBit false ||| pagePresent) rfl (by decide)
          exact ⟨hpresent, htable, Or.inr (Or.inl ⟨hrw, hexec⟩)⟩
      | true =>
          obtain ⟨hpresent, htable, hrw, hexec⟩ :=
            hflags (nxBit true ||| pagePresent) rfl (by decide)
          exact ⟨hpresent, htable, Or.inr (Or.inl ⟨hrw, hexec⟩)⟩
  | data hin =>
      rw [Nat.or_assoc]
      cases hnx : k.cpuNx with
      | false =>
          obtain ⟨hpresent, htable, -, hexec⟩ :=
            hflags (pageRw ||| nxBit false ||| pagePresent) rfl (by decide)
          exact ⟨hpresent, htable, Or.inr (Or.inr ⟨hexec, hin⟩)⟩
      | true =>
          obtain ⟨hpresent, htable, -, hexec⟩ :=
            hflags (pageRw ||| nxBit true ||| pagePresent) rfl (by decide)
          exact ⟨hpresent, htable, Or.inr (Or.inr ⟨hexec, hin⟩)⟩

/-- Whatever is reached outside the direct map is a page of the image. -/
theorem Rooted.access_image (h : Rooted k p roles s) (hv : tableIndex 3 v ≠ hhdmPml4Index)
    {r : Reach} (hr : s.access v = some r) : ImageReach k v r := by
  have htop : ∀ {level table : Nat}, s.memory.mem table (tableIndex level v) = 0 →
      access s.memory.mem level table v ≠ some r := by
    intro level table hzero hcon
    rw [access_absent hzero] at hcon
    cases hcon
  rw [Pager.access, h.pml4] at hr
  rcases h.tables.entries 0 _ h.top (tableIndex 3 v) with hzero | ⟨hcon, -⟩ | ⟨-, n, hn, hlink⟩
  · exact absurd hr (htop hzero)
  · exact absurd hcon hv
  rw [access_link (h.tables.pageBase hn) hlink] at hr
  rcases h.tables.entries n _ hn (tableIndex 2 v) with hzero | ⟨-, n', hn', hlink'⟩
  · exact absurd hr (htop hzero)
  rw [access_link (h.tables.pageBase hn') hlink'] at hr
  rcases h.tables.entries n' _ hn' (tableIndex 1 v) with hzero | ⟨m, hm, hlink''⟩
  · exact absurd hr (htop hzero)
  rw [access_link (h.tables.pageBase hm) hlink''] at hr
  rcases h.tables.entries m _ hm (tableIndex 0 v) with hzero | hentry
  · exact absurd hr (htop hzero)
  obtain ⟨hpresent, htable, -⟩ :=
    hentry.flags (pageBase_imagePage (tableIndex_lt 1 v) (tableIndex_lt 0 v))
  have hflags : HasFlags (s.memory.mem (k.table m) (tableIndex 0 v)) _ _ _ :=
    ⟨hpresent, rfl, rfl, rfl⟩
  have hleaf := access_leaf hflags
  rw [hr] at hleaf
  rw [Option.some.inj hleaf]
  refine ⟨⟨_, _, _, hentry, rfl, rfl, rfl, rfl⟩, ?_⟩
  dsimp only
  rw [htable]

/-! ## What the tables allow -/

theorem tableIndex_hhdmBase {q : Nat} (hq : q < 2 ^ 39) :
    tableIndex 3 (hhdmBase + q) = hhdmPml4Index ∧ (hhdmBase + q) % 2 ^ 39 = q ∧
      tableIndex 2 (hhdmBase + q) = q / 2 ^ 30 ∧
      tableIndex 1 (hhdmBase + q) = q / 2 ^ 21 % 512 ∧
      tableIndex 0 (hhdmBase + q) = q / 2 ^ 12 % 512 := by
  have hbase : hhdmBase = 0xFFFF800000000000 := rfl
  have hindex : hhdmPml4Index = 256 := rfl
  simp only [tableIndex_eq, hbase, hindex]
  omega

variable {info : PagingInfo} {r : Reach}

/-- A page of the image is read-only in the direct map. -/
theorem Built.readonly_at (h : Built k p info roles s) {v : Nat}
    (hlo : pagingAlignDown k.bootStart pageSize ≤ v % 2 ^ 39)
    (hhi : v % 2 ^ 39 < k.kernelEnd - kernelVmaBase) :
    Readonly k roles s (tableIndex 2 v) (tableIndex 1 v) (tableIndex 0 v) := by
  have hphys := regionPage_tableIndex v
  have hpage : regionPage (tableIndex 2 v) (tableIndex 1 v) (tableIndex 0 v) % pageSize = 0 :=
    (pageBase_regionPage (tableIndex_lt 2 v) (tableIndex_lt 1 v) (tableIndex_lt 0 v)).aligned
  have halign : pagingAlignDown k.bootStart pageSize % pageSize = 0 := Nat.mul_mod_left _ _
  have hsize : pageSize = 4096 := rfl
  refine h.readonly _ _ _ (tableIndex_lt 1 v) (tableIndex_lt 0 v) ?_ (by omega)
  generalize pagingAlignDown k.bootStart pageSize = start at hlo halign ⊢
  rw [hsize] at hphys hpage halign
  omega

/-- Every address below the limit is in the direct map. -/
theorem Built.covered_at (h : Built k p info roles s) {q : Nat} (hq : q < s.hhdmLimit) :
    q < 2 ^ 39 ∧ Covered k roles s (q / 2 ^ 30) (q / 2 ^ 21 % 512) := by
  obtain ⟨-, hupper⟩ := limitFor_bounds info.memmap
  have hmax : hhdmMaxLimit = 0x1000000000 := rfl
  rw [h.limit] at hq
  refine ⟨by omega, h.covered _ _ (Nat.mod_lt _ (by decide)) ?_⟩
  unfold regionBase
  omega

/-- No address may be both written and executed. -/
theorem Built.not_both (h : Built k p info roles s) (hnx : k.cpuNx = true) {v : Nat}
    (hr : s.access v = some r) : ¬ (r.writable = true ∧ r.executable = true) := by
  rintro ⟨hwrite, hexec⟩
  by_cases hv : tableIndex 3 v = hhdmPml4Index
  · have hdirect := (h.rooted.access_direct_some hv hr).1.executable
    rw [hexec, hnx] at hdirect
    cases hdirect
  · obtain ⟨⟨e, rw, nx, hentry, hrw, hnx', hwritable, hexecutable⟩, -⟩ :=
      h.rooted.access_image hv hr
    obtain ⟨-, -, hkinds⟩ :=
      hentry.flags (pageBase_imagePage (tableIndex_lt 1 v) (tableIndex_lt 0 v))
    rw [hwritable, ← hrw] at hwrite
    rw [hexecutable, ← hnx'] at hexec
    rcases hkinds with ⟨hkind, -⟩ | ⟨hkind, -⟩ | ⟨hkind, -⟩
    · rw [hkind] at hwrite
      cases hwrite
    · rw [hkind] at hwrite
      cases hwrite
    · rw [hkind, hnx] at hexec
      cases hexec

/-- The code cannot be written through any address. -/
theorem Built.text_readonly (h : Built k p info roles s) (hlink : k.Linked) {v : Nat}
    (hr : s.access v = some r) (htext : InSection k.textStart k.textEnd r.phys) :
    r.writable = false := by
  have hboot := hlink.boot_text
  have horder := hlink.text_rodata
  have horder' := hlink.rodata
  have horder'' := hlink.rodata_data
  have hdata := hlink.data
  obtain ⟨hlo, hhi⟩ := htext
  by_cases hv : tableIndex 3 v = hhdmPml4Index
  · obtain ⟨hdirect, hreadonly⟩ := h.rooted.access_direct_some hv hr
    have hphys := hdirect.phys
    have halign : pagingAlignDown k.bootStart pageSize ≤ k.bootStart := Nat.div_mul_le_self _ _
    exact hreadonly (h.readonly_at (by omega) (by omega))
  · obtain ⟨⟨e, rw, nx, hentry, hrw, -, hwritable, -⟩, hphys⟩ := h.rooted.access_image hv hr
    obtain ⟨-, -, hkinds⟩ :=
      hentry.flags (pageBase_imagePage (tableIndex_lt 1 v) (tableIndex_lt 0 v))
    rw [hwritable, ← hrw]
    rcases hkinds with ⟨hkind, -⟩ | ⟨hkind, -⟩ | ⟨-, hdata'⟩
    · exact hkind
    · exact hkind
    · -- a page of the data lies behind the code
      obtain ⟨hstart, -⟩ := hdata'
      omega

/-! ## The pool is large enough -/

/-- The tables of an image of at most 128 MiB and of a direct map without a framebuffer. -/
def smallRoles : List Role :=
  rootRoles ++ ((List.range 64).map .hhdmPd ++
    ((List.range 64).map (.hhdmPt 0) ++ (List.range 64).map .kernelPt))

/-- The initialisation succeeds for an image of at most 128 MiB and a framebuffer that the direct
map reaches. -/
theorem pagingInit_succeeds (hlink : k.Linked) (info : PagingInfo) (s₀ : Pager)
    (hsmall : k.kernelEnd ≤ kernelVmaBase + 2 ^ 27)
    (hnear : (info.framebufferBase + info.framebufferSize) % 2 ^ 64 ≤ limitFor info.memmap) :
    ∃ s, pagingInit k (some info) s₀ = (.ok (), s) := by
  obtain ⟨-, hupper⟩ := limitFor_bounds info.memmap
  have hmax : hhdmMaxLimit = 0x1000000000 := rfl
  have hsuits : Plan.Suits ⟨fun role => role ∈ smallRoles, False⟩ k info := by
    constructor
    · exact fun role hrole => List.mem_append_left _ hrole
    · intro addr haddr
      refine List.mem_append_right _ (List.mem_append_left _ (List.mem_map_of_mem ?_))
      rw [List.mem_range]
      omega
    · exact fun hfar => absurd hfar (Nat.not_lt.mpr hnear)
    · exact fun hfar => absurd hfar (Nat.not_lt.mpr hnear)
    · intro addr haddr
      have hfirst : addr / 2 ^ 30 = 0 := by omega
      refine List.mem_append_right _ (List.mem_append_right _ (List.mem_append_left _ ?_))
      rw [hfirst]
      refine List.mem_map_of_mem ?_
      rw [List.mem_range]
      omega
    · intro v hlo hhi
      refine List.mem_append_right _ (List.mem_append_right _ (List.mem_append_right _
        (List.mem_map_of_mem ?_)))
      rw [List.mem_range]
      omega
  have hpost := pagingInit_built hlink hsuits s₀
  unfold Eff.Post at hpost
  cases hrun : pagingInit k (some info) s₀ with
  | mk outcome s =>
      cases outcome with
      | ok u => exact ⟨s, rfl⟩
      | error e =>
          rw [hrun] at hpost
          obtain ⟨roles, hrooted, hfull | hfalse⟩ := hpost
          · have hroom := hrooted.length_le (fun role (hrole : role ∈ smallRoles) => hrole)
            have hcount : smallRoles.length = 196 := by
              simp only [smallRoles, rootRoles, List.length_append, List.length_map,
                List.length_range, List.length_cons, List.length_nil]
            have hpages : pagingPoolPages = 320 := rfl
            omega
          · exact hfalse.elim

/-! ## Every alias -/

/-- The initialisation never leaves an address both writable and executable, maps the image
read-only in the direct map, gives no way to write the code, and maps all of physical memory up to
its limit. -/
theorem kernel_write_xor_execute (hlink : k.Linked) (hnx : k.cpuNx = true) (info : PagingInfo)
    (s₀ s : Pager) (hrun : pagingInit k (some info) s₀ = (.ok (), s)) :
    (∀ v r, s.access v = some r → ¬ (r.writable = true ∧ r.executable = true)) ∧
    (∀ q, pagingAlignDown k.bootStart pageSize ≤ q → q < k.kernelEnd - kernelVmaBase →
      ∃ r, s.access (hhdmBase + q) = some r ∧ r.phys = q ∧ r.writable = false) ∧
    (∀ v r, s.access v = some r → InSection k.textStart k.textEnd r.phys → r.writable = false) ∧
    (∀ q < s.hhdmLimit, ∃ r, s.access (hhdmBase + q) = some r ∧ r.phys = q) := by
  have hsuits : Plan.Suits ⟨fun _ => True, True⟩ k info :=
    ⟨fun _ _ => trivial, fun _ _ => trivial, fun _ _ => trivial, fun _ => trivial,
      fun _ _ => trivial, fun _ _ _ => trivial⟩
  have hpost := pagingInit_built hlink hsuits s₀
  unfold Eff.Post at hpost
  rw [hrun] at hpost
  obtain ⟨roles, -, hbuilt⟩ := hpost
  have hreach : ∀ q < s.hhdmLimit, ∃ r, s.access (hhdmBase + q) = some r ∧ r.phys = q ∧
      (Readonly k roles s (tableIndex 2 (hhdmBase + q)) (tableIndex 1 (hhdmBase + q))
        (tableIndex 0 (hhdmBase + q)) → r.writable = false) := by
    intro q hq
    obtain ⟨hlt, hcovered⟩ := hbuilt.covered_at hq
    obtain ⟨htop, hmod, hindex₂, hindex₁, -⟩ := tableIndex_hhdmBase hlt
    rw [← hindex₂, ← hindex₁] at hcovered
    obtain ⟨r, hr, hdirect, hreadonly⟩ := hbuilt.rooted.access_covered htop hcovered
    exact ⟨r, hr, hdirect.phys.trans hmod, hreadonly⟩
  refine ⟨fun v r hr => hbuilt.not_both hnx hr, fun q hlo hhi => ?_,
    fun v r hr htext => hbuilt.text_readonly hlink hr htext, fun q hq => ?_⟩
  · have hend := hlink.kernelEnd
    have hmin : hhdmMinLimit = 0x100000000 := rfl
    have hlimit : q < s.hhdmLimit := by
      rw [hbuilt.limit]
      have := (limitFor_bounds info.memmap).1
      omega
    obtain ⟨r, hr, hphys, hreadonly⟩ := hreach q hlimit
    obtain ⟨-, hmod, -⟩ := tableIndex_hhdmBase (hbuilt.covered_at hlimit).1
    exact ⟨r, hr, hphys, hreadonly (hbuilt.readonly_at (by rw [hmod]; exact hlo)
      (by rw [hmod]; exact hhi))⟩
  · obtain ⟨r, hr, hphys, -⟩ := hreach q hq
    exact ⟨r, hr, hphys⟩

/-- A kernel of one MiB, one MiB above the start of memory. -/
def smallPlatform : Platform where
  bootStart := 0x100000
  textStart := 0xFFFFFFFF80110000
  textEnd := 0xFFFFFFFF80120000
  rodataStart := 0xFFFFFFFF80120000
  rodataEnd := 0xFFFFFFFF80128000
  dataStart := 0xFFFFFFFF80128000
  kernelEnd := 0xFFFFFFFF80300000
  bootStackGuard := 0xFFFFFFFF80130000
  pool := 0xFFFFFFFF80180000
  cpuNx := true

theorem smallPlatform_linked : smallPlatform.Linked :=
  ⟨⟨by decide, by decide, by decide⟩, by decide, by decide, by decide, by decide, by decide,
    by decide, by decide, by decide, by decide, by decide, by decide⟩

/-- No usable memory above the minimum, and no framebuffer. -/
def smallInfo : PagingInfo where
  memmap := []
  framebufferBase := 0
  framebufferSize := 0

/-- The state before the initialisation. -/
def smallPager : Pager where
  memory := smallMemory
  poolUsed := 0
  pdptHhdm := 0
  pdKernel := 0
  hhdmLimit := 0

theorem kernel_write_xor_execute_small :
    ∃ s, pagingInit smallPlatform (some smallInfo) smallPager = (.ok (), s) ∧
      (∀ v r, s.access v = some r → ¬ (r.writable = true ∧ r.executable = true)) ∧
      ∀ q < s.hhdmLimit, ∃ r, s.access (hhdmBase + q) = some r ∧ r.phys = q := by
  obtain ⟨s, hrun⟩ := pagingInit_succeeds smallPlatform_linked smallInfo smallPager (by decide)
    (by decide)
  obtain ⟨hwx, -, -, hdirect⟩ :=
    kernel_write_xor_execute smallPlatform_linked rfl smallInfo smallPager s hrun
  exact ⟨s, hrun, hwx, hdirect⟩

end Mm
end Nyxis
