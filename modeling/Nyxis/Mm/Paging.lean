import Nyxis.Mm.Pfa
import Mathlib.Data.Nat.Bitwise

/-!
# Four-level page tables

The mapping interface of {lit}`kernel/paging/paging.c` for user address spaces:
creating an address space, mapping and unmapping one page, and giving a whole
address space back.  Every table is a frame of the physical frame allocator and
is named by its physical address; entries are 64-bit words.

The second half of the module reads an entry back: an entry built from a frame
and its flags is present and yields the same frame again.
-/

namespace Nyxis
namespace Mm

/-! ## Entries -/

def pagePresent : Nat := 0x001
def pageRw : Nat := 0x002
def pageUser : Nat := 0x004
def pagePwt : Nat := 0x008
def pagePcd : Nat := 0x010
def pageHuge : Nat := 0x080
def pageGlobal : Nat := 0x100
def pageNx : Nat := 0x8000000000000000

/-- {lit}`ENTRY_ADDR_MASK`: the bits of an entry that hold a frame address. -/
def entryAddrMask : Nat := 0x000FFFFFFFFFF000

/-- End of the user half of the address space. -/
def userSpaceEnd : Nat := 0x0000800000000000

def entriesPerTable : Nat := 512
def hhdmPml4Index : Nat := 256
def kernelPml4Index : Nat := 511

/-- The flag bits {lit}`paging_map_page` lets a caller choose. -/
def leafFlagMask : Nat :=
  pageRw ||| pageUser ||| pagePwt ||| pagePcd ||| pageGlobal ||| pageNx

/-- A flag is set in an entry. -/
def hasFlag (entry flag : Nat) : Bool :=
  entry &&& flag != 0

/-- {lit}`table_of_dyn`: the frame an entry points to. -/
def tableOf (entry : Nat) : Nat :=
  entry &&& entryAddrMask

/-- The table index of a virtual address at a level; level 3 is the PML4 and
level 0 the page table. -/
def tableIndex (level v : Nat) : Nat :=
  (v >>> (12 + 9 * level)) &&& 0x1FF

/-- {lit}`is_canonical`: bits 47 and up are all equal. -/
def isCanonical (addr : Nat) : Bool :=
  addr >>> 47 == 0 || addr >>> 47 == 0x1FFFF

/-! ## Tables -/

/-- {lit}`alloc_table_dyn`: a cleared table from the frame allocator, or null. -/
def allocTableDyn : MemM (Option Nat) := do
  match ← Eff.attempt pfaAlloc with
  | .ok phys => pure (some phys)
  | .error _ => pure none

/-- {lit}`next_level_dyn`: the table an entry leads to, created on demand. -/
def nextLevelDyn (table idx : Nat) (create : Bool) : MemM (Option Nat) := do
  let entry ← Eff.gets (fun m => m.mem table idx)
  if hasFlag entry pagePresent then
    if hasFlag entry pageHuge then
      pure none
    else
      if !hasFlag entry pageUser then
        Eff.modify (fun m => m.store table idx (entry ||| pageUser))
      pure (some (tableOf entry))
  else if !create then
    pure none
  else
    match ← allocTableDyn with
    | none => pure none
    | some fresh =>
        Eff.modify (fun m =>
          m.store table idx (fresh ||| pagePresent ||| pageRw ||| pageUser))
        pure (some fresh)

/-- {lit}`paging_addrspace_create`: a top-level table that shares the kernel half. -/
def pagingAddrspaceCreate : MemM Nat := do
  let kernel ← Eff.gets Memory.kernelPml4
  if kernel = 0 then
    Eff.fail .NnotInitialized
  else
    match ← allocTableDyn with
    | none => Eff.fail .NoutOfMemory
    | some pml4 =>
        Eff.modify (fun m => m.store pml4 hhdmPml4Index (m.mem kernel hhdmPml4Index))
        Eff.modify (fun m => m.store pml4 kernelPml4Index (m.mem kernel kernelPml4Index))
        pure pml4

/-- Descend from the top-level table to the page table of an address.  A null
table on the way is reported with the status of the caller. -/
def walkToTable (pml4 v : Nat) (create : Bool) (missing : Nstatus) : MemM Nat := do
  match ← nextLevelDyn pml4 (tableIndex 3 v) create with
  | none => Eff.fail missing
  | some pdpt =>
      match ← nextLevelDyn pdpt (tableIndex 2 v) create with
      | none => Eff.fail missing
      | some pd =>
          match ← nextLevelDyn pd (tableIndex 1 v) create with
          | none => Eff.fail missing
          | some pt => pure pt

/-- The flags a mapping call stores: the no-execute bit is dropped where the
processor lacks it. -/
def effectiveFlags (nx : Bool) (flags : Nat) : Nat :=
  if nx then flags else flags &&& (pageNx ^^^ 0xFFFFFFFFFFFFFFFF)

/-- The leaf entry {lit}`paging_map_page` stores. -/
def leafEntry (p flags : Nat) : Nat :=
  p ||| (flags &&& leafFlagMask) ||| pagePresent ||| pageUser

/-- {lit}`paging_map_page`: bind one user page to a frame. -/
def pagingMapPage (pml4 p v flags : Nat) : MemM Unit := do
  if pml4 = 0 then
    Eff.fail .NnotInitialized
  else if p % pageSize ≠ 0 ∨ v % pageSize ≠ 0 then
    Eff.fail .NinvalidArg
  else if v = 0 ∨ isCanonical v = false ∨ userSpaceEnd ≤ v then
    Eff.fail .NinvalidArg
  else if p >>> 52 ≠ 0 then
    Eff.fail .NinvalidArg
  else
    let nx ← Eff.gets Memory.nxSupported
    let flags := effectiveFlags nx flags
    if nx ∧ hasFlag flags pageRw ∧ ¬ hasFlag flags pageNx then
      Eff.fail .Npermission
    else
      let pt ← walkToTable pml4 v true .NoutOfMemory
      let entry ← Eff.gets (fun m => m.mem pt (tableIndex 0 v))
      if hasFlag entry pagePresent then
        Eff.fail .NalreadyExists
      else
        Eff.modify (fun m => m.store pt (tableIndex 0 v) (leafEntry p flags))

/-- The common part of the two unmapping calls: find the leaf entry of a page
and clear it. -/
def clearLeaf (pml4 v : Nat) : MemM Nat := do
  if pml4 = 0 then
    Eff.fail .NnotInitialized
  else if v = 0 ∨ v % pageSize ≠ 0 ∨ isCanonical v = false ∨ userSpaceEnd ≤ v then
    Eff.fail .NinvalidArg
  else
    let pt ← walkToTable pml4 v false .NinvalidArg
    let entry ← Eff.gets (fun m => m.mem pt (tableIndex 0 v))
    if hasFlag entry pagePresent then
      Eff.modify (fun m => m.store pt (tableIndex 0 v) 0)
      pure entry
    else
      Eff.fail .NinvalidArg

/-- {lit}`paging_unmap_page`: drop one mapping; the frame stays with the caller. -/
def pagingUnmapPage (pml4 v : Nat) : MemM Unit := do
  let _ ← clearLeaf pml4 v
  pure ()

/-- {lit}`paging_unmap_free_page`: drop one mapping and release its frame. -/
def pagingUnmapFreePage (pml4 v : Nat) : MemM Unit := do
  let entry ← clearLeaf pml4 v
  pfaFree (tableOf entry)

/-! ## Giving an address space back -/

/-- A loop over the entries {lit}`[i, i + n)` of a table. -/
def eachEntry (table : Nat) (body : Nat → MemM Unit) : (i n : Nat) → MemM Unit
  | _, 0 => pure ()
  | i, n + 1 => do
      let entry ← Eff.gets (fun m => m.mem table i)
      body entry
      eachEntry table body (i + 1) n

/-- Release what an entry leads to.  At level 0 that is a data frame, at a higher
level a table whose own entries are released first and which is released last. -/
def destroyEntry : (level entry : Nat) → MemM Unit
  | 0, entry =>
      if hasFlag entry pagePresent then
        Eff.ignore (pfaFree (tableOf entry))
      else
        pure ()
  | level + 1, entry =>
      -- the PML4 loop of the source does not test for a huge page, the two
      -- loops below it do
      if hasFlag entry pagePresent && (level == 2 || !hasFlag entry pageHuge) then do
        eachEntry (tableOf entry) (destroyEntry level) 0 entriesPerTable
        Eff.ignore (pfaFree (tableOf entry))
      else
        pure ()

/-- {lit}`paging_addrspace_destroy`: release every frame of the user half and the
top-level table. -/
def pagingAddrspaceDestroy (pml4 : Nat) : MemM Unit := do
  if pml4 = 0 then
    pure ()
  else
    eachEntry pml4 (destroyEntry 3) 0 hhdmPml4Index
    Eff.ignore (pfaFree pml4)

/-! ## Reading entries back -/

/-- A physical address that can be stored in an entry. -/
structure Frame (p : Nat) : Prop where
  ne_zero : p ≠ 0
  aligned : p % pageSize = 0
  lt : p < 2 ^ 52

theorem testBit_entryAddrMask (i : Nat) :
    entryAddrMask.testBit i = (decide (12 ≤ i) && decide (i < 52)) := by
  have h : entryAddrMask = (2 ^ 40 - 1) <<< 12 := by decide
  rw [h, Nat.testBit_shiftLeft, Nat.testBit_two_pow_sub_one]
  by_cases hi : 12 ≤ i
  · simp only [ge_iff_le, hi, decide_true, Bool.true_and, decide_eq_decide]
    omega
  · simp [hi]

theorem Frame.testBit_low {p i : Nat} (h : Frame p) (hi : i < 12) :
    p.testBit i = false := by
  have hp : p = 2 ^ 12 * (p / 2 ^ 12) := by
    have := h.aligned
    simp only [pageSize] at this
    omega
  rw [hp, Nat.testBit_two_pow_mul]
  simp [Nat.not_le.mpr hi]

theorem Frame.testBit_high {p i : Nat} (h : Frame p) (hi : 52 ≤ i) :
    p.testBit i = false :=
  Nat.testBit_eq_false_of_lt
    (Nat.lt_of_lt_of_le h.lt (Nat.pow_le_pow_right (by decide) hi))

/-- The address bits of an entry survive any flag that lies outside them. -/
theorem tableOf_or {p flags : Nat} (hp : Frame p) (hflags : flags &&& entryAddrMask = 0) :
    tableOf (p ||| flags) = p := by
  apply Nat.eq_of_testBit_eq
  intro i
  have hf : (flags &&& entryAddrMask).testBit i = false := by
    rw [hflags, Nat.zero_testBit]
  rw [Nat.testBit_and, testBit_entryAddrMask] at hf
  rw [tableOf, Nat.testBit_and, Nat.testBit_or, testBit_entryAddrMask]
  by_cases hlow : 12 ≤ i
  · by_cases hhigh : i < 52
    · simp only [hlow, hhigh, decide_true, Bool.and_true] at hf ⊢
      simp [hf]
    · simp [hhigh, hp.testBit_high (Nat.le_of_not_lt hhigh)]
  · simp [hlow, hp.testBit_low (Nat.lt_of_not_le hlow)]

/-- A power-of-two flag test reads one bit. -/
theorem hasFlag_two_pow (entry k : Nat) : hasFlag entry (2 ^ k) = entry.testBit k := by
  rw [hasFlag, Nat.and_two_pow]
  cases entry.testBit k <;> simp

theorem hasFlag_present (entry : Nat) : hasFlag entry pagePresent = entry.testBit 0 :=
  hasFlag_two_pow entry 0

theorem hasFlag_rw (entry : Nat) : hasFlag entry pageRw = entry.testBit 1 :=
  hasFlag_two_pow entry 1

theorem hasFlag_user (entry : Nat) : hasFlag entry pageUser = entry.testBit 2 :=
  hasFlag_two_pow entry 2

theorem hasFlag_huge (entry : Nat) : hasFlag entry pageHuge = entry.testBit 7 :=
  hasFlag_two_pow entry 7

theorem hasFlag_nx (entry : Nat) : hasFlag entry pageNx = entry.testBit 63 :=
  hasFlag_two_pow entry 63

/-- The entry that {lit}`next_level_dyn` stores for a fresh table. -/
def tableEntry (p : Nat) : Nat :=
  p ||| pagePresent ||| pageRw ||| pageUser

theorem tableEntry_eq (p : Nat) : tableEntry p = p ||| 7 := by
  rw [tableEntry, Nat.or_assoc, Nat.or_assoc]
  rfl

@[simp]
theorem tableOf_tableEntry {p : Nat} (hp : Frame p) : tableOf (tableEntry p) = p := by
  rw [tableEntry_eq]
  exact tableOf_or hp (by decide)

@[simp]
theorem hasFlag_tableEntry_present (p : Nat) :
    hasFlag (tableEntry p) pagePresent = true := by
  rw [hasFlag_present, tableEntry_eq, Nat.testBit_or]
  simp [show Nat.testBit 7 0 = true from rfl]

@[simp]
theorem hasFlag_tableEntry_user (p : Nat) :
    hasFlag (tableEntry p) pageUser = true := by
  rw [hasFlag_user, tableEntry_eq, Nat.testBit_or]
  simp [show Nat.testBit 7 2 = true from rfl]

@[simp]
theorem hasFlag_tableEntry_huge {p : Nat} (hp : Frame p) :
    hasFlag (tableEntry p) pageHuge = false := by
  rw [hasFlag_huge, tableEntry_eq, Nat.testBit_or, hp.testBit_low (by decide)]
  rfl

theorem leafEntry_eq (p flags : Nat) :
    leafEntry p flags = p ||| ((flags &&& leafFlagMask) ||| 5) := by
  rw [leafEntry, Nat.or_assoc, Nat.or_assoc]
  rfl

@[simp]
theorem tableOf_leafEntry {p : Nat} (hp : Frame p) (flags : Nat) :
    tableOf (leafEntry p flags) = p := by
  rw [leafEntry_eq]
  refine tableOf_or hp ?_
  rw [Nat.and_or_distrib_right, Nat.and_assoc]
  have h : leafFlagMask &&& entryAddrMask = 0 := by decide
  rw [h, Nat.and_zero]
  decide

@[simp]
theorem hasFlag_leafEntry_present (p flags : Nat) :
    hasFlag (leafEntry p flags) pagePresent = true := by
  rw [hasFlag_present, leafEntry_eq, Nat.testBit_or, Nat.testBit_or]
  simp [show Nat.testBit 5 0 = true from rfl]

/-- A stored leaf is writable exactly if the caller asked for it. -/
theorem hasFlag_leafEntry_rw {p : Nat} (hp : Frame p) (flags : Nat) :
    hasFlag (leafEntry p flags) pageRw = hasFlag flags pageRw := by
  rw [hasFlag_rw, hasFlag_rw, leafEntry_eq, Nat.testBit_or, Nat.testBit_or, Nat.testBit_and,
    hp.testBit_low (by decide), show Nat.testBit leafFlagMask 1 = true from rfl,
    show Nat.testBit 5 1 = false from rfl]
  simp

/-- A stored leaf is non-executable exactly if the caller asked for it. -/
theorem hasFlag_leafEntry_nx {p : Nat} (hp : Frame p) (flags : Nat) :
    hasFlag (leafEntry p flags) pageNx = hasFlag flags pageNx := by
  rw [hasFlag_nx, hasFlag_nx, leafEntry_eq, Nat.testBit_or, Nat.testBit_or, Nat.testBit_and,
    hp.testBit_high (by decide), show Nat.testBit leafFlagMask 63 = true from rfl,
    show Nat.testBit 5 63 = false from rfl]
  simp

/-- An empty entry is not present. -/
@[simp]
theorem hasFlag_zero (flag : Nat) : hasFlag 0 flag = false := by
  simp [hasFlag]

/-! ## Indices -/

theorem tableIndex_eq (level v : Nat) :
    tableIndex level v = v / 2 ^ (12 + 9 * level) % 512 := by
  rw [tableIndex, Nat.shiftRight_eq_div_pow,
    show (0x1FF : Nat) = 2 ^ 9 - 1 from rfl, Nat.and_two_pow_sub_one_eq_mod]

theorem tableIndex_lt (level v : Nat) : tableIndex level v < entriesPerTable := by
  rw [tableIndex_eq]
  exact Nat.mod_lt _ (by decide)

/-- A user address selects an entry of the lower half of the top-level table. -/
theorem tableIndex_top_lt {v : Nat} (hv : v < userSpaceEnd) :
    tableIndex 3 v < hhdmPml4Index := by
  rw [tableIndex_eq]
  simp only [userSpaceEnd, hhdmPml4Index] at *
  omega

/-- A user page is determined by its four indices. -/
theorem eq_of_tableIndex_eq {v w : Nat} (hv : v < userSpaceEnd) (hw : w < userSpaceEnd)
    (hav : v % pageSize = 0) (haw : w % pageSize = 0)
    (h : ∀ level < 4, tableIndex level v = tableIndex level w) : v = w := by
  have h0 := h 0 (by decide)
  have h1 := h 1 (by decide)
  have h2 := h 2 (by decide)
  have h3 := h 3 (by decide)
  simp only [tableIndex_eq, userSpaceEnd, pageSize] at *
  omega

end Mm
end Nyxis
