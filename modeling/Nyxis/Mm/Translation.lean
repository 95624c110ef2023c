import Nyxis.Mm.Destroy
import Mathlib.Logic.Relation

/-!
# Address spaces as partial maps

The processor reads an address space by walking its tables.  This module defines
that walk and shows that the mapping calls act on it as updates of a partial map
from pages to frames and flags: one binding is added or removed by a successful
call, and nothing changes otherwise.

The callers of the mapping interface are part of the system.  They allocate and
free frames, fill them with data, and map only frames that they hold.

Main results:

- Definition {lit}`translate`: the page walk.
- Definition {lit}`Maps.Spec`: what each call does to the partial maps.
- Theorem {lit}`paging_refines_maps`: in every reachable state each call acts on
  the walked tables as its specification says.
-/

namespace Nyxis
namespace Mm

/-! ## The page walk -/

/-- The bits of an entry outside its frame address. -/
def flagsOf (entry : Nat) : Nat :=
  entry &&& (entryAddrMask ^^^ 0xFFFFFFFFFFFFFFFF)

/-- The 4 KiB frame of an address inside a large page. -/
def hugeFrame (level entry v : Nat) : Nat :=
  tableOf entry / 2 ^ (12 + 9 * level) * 2 ^ (12 + 9 * level) +
    v % 2 ^ (12 + 9 * level) / pageSize * pageSize

/-- The page walk of the processor from a table of the given level: the frame of
an address and the flags of the entry that maps it. -/
def walk (mem : Nat → Nat → Nat) : (level table v : Nat) → Option (Nat × Nat)
  | 0, table, v =>
      let entry := mem table (tableIndex 0 v)
      if isPresent entry then some (tableOf entry, flagsOf entry) else none
  | level + 1, table, v =>
      let entry := mem table (tableIndex (level + 1) v)
      if !isPresent entry then none
      else if level + 1 < 3 && hasFlag entry pageHuge then
        some (hugeFrame (level + 1) entry v, flagsOf entry)
      else walk mem level (tableOf entry) v

/-- The translation of an address in an address space. -/
def translate (mem : Nat → Nat → Nat) (pml4 v : Nat) : Option (Nat × Nat) :=
  walk mem 3 pml4 v

theorem translate_top (mem : Nat → Nat → Nat) (pml4 v : Nat) :
    translate mem pml4 v =
      if isPresent (mem pml4 (tableIndex 3 v)) then
        walk mem 2 (tableOf (mem pml4 (tableIndex 3 v))) v
      else none := by
  rw [translate, walk]
  cases isPresent (mem pml4 (tableIndex (2 + 1) v)) <;> simp

/-- Page-aligned addresses of the user half. -/
def UserPage (v : Nat) : Prop :=
  v < userSpaceEnd ∧ v % pageSize = 0

instance (v : Nat) : Decidable (UserPage v) :=
  inferInstanceAs (Decidable (_ ∧ _))

/-- Addresses of the upper half. -/
def KernelAddr (v : Nat) : Prop :=
  hhdmPml4Index ≤ tableIndex 3 v

instance (v : Nat) : Decidable (KernelAddr v) :=
  inferInstanceAs (Decidable (_ ≤ _))

/-- No table that the walk may visit from here is one of the given frames. -/
def Avoids (mem : Nat → Nat → Nat) (boot : Finset Nat) : (level table : Nat) → Prop
  | 0, table => table ∉ boot
  | level + 1, table => table ∉ boot ∧ ∀ i, isPresent (mem table i) = true →
      hasFlag (mem table i) pageHuge = false → Avoids mem boot level (tableOf (mem table i))

/-- A walk that avoids some frames does not depend on them. -/
theorem walk_congr {mem mem' : Nat → Nat → Nat} {boot : Finset Nat}
    (hmem : ∀ f, f ∉ boot → mem' f = mem f) {level table : Nat} (hlevel : level < 3)
    (h : Avoids mem boot level table) (v : Nat) :
    walk mem' level table v = walk mem level table v := by
  induction level generalizing table with
  | zero =>
      have htable : mem' table = mem table := hmem table h
      simp only [walk, htable]
  | succ level ih =>
      obtain ⟨htable, hbelow⟩ := h
      have hlt : (decide (level + 1 < 3)) = true := decide_eq_true hlevel
      simp only [walk, hmem table htable]
      split
      · rfl
      next hp =>
        simp only [hlt, Bool.true_and]
        split
        · rfl
        next hh =>
          refine ih (by omega) (hbelow _ ?_ ?_)
          · simpa using hp
          · simpa using hh

variable {m : Memory} {a : Account} {free : List Nat}

/-- In the user half the walk ends at the leaf of the page. -/
theorem Ledger.translate_user (h : Ledger m a free) {s : Nat} (hs : s ∈ a.spaces) {v : Nat}
    (hv : v < userSpaceEnd) :
    translate m.mem s v =
      (entryAt m.mem s (leafPos v)).map (fun e => (tableOf e, flagsOf e)) := by
  obtain ⟨hp3, hp2, hp1, _⟩ := userPos_levels hv
  have hnone : ∀ {q : List Nat} {i t : Nat}, tableAt m.mem s q = some t →
      isPresent (m.mem t i) = false → q ++ [i] <+: leafPos v →
      entryAt m.mem s (leafPos v) = none := by
    intro q i t ht hp hpre
    refine TableTree.entryAt_below_absent _ ?_ (by simp) hpre
    have := entryAt_of_table ht i
    rw [hp] at this
    exact this
  have ht0 : tableAt m.mem s [] = some s := rfl
  rw [translate, walk]
  cases hp : isPresent (m.mem s (tableIndex 3 v)) with
  | false =>
      rw [hnone ht0 hp ⟨_, rfl⟩]
      simp
  | true =>
      have ht1 := tableAt_snoc_of_present ht0 hp
      simp only [Bool.not_true, Bool.false_eq_true, if_false, Nat.lt_irrefl, decide_false,
        Bool.false_and]
      rw [walk]
      cases hp1' : isPresent (m.mem (tableOf (m.mem s (tableIndex 3 v))) (tableIndex 2 v)) with
      | false =>
          rw [hnone ht1 hp1' ⟨_, rfl⟩]
          simp
      | true =>
          obtain ⟨hh, _, ht2⟩ := h.table_entry hs hp2 (by simp) ht1 hp1'
          simp only [hh, Bool.and_false, Bool.not_true, Bool.false_eq_true, if_false]
          rw [walk]
          cases hp2' : isPresent (m.mem (tableOf (m.mem (tableOf (m.mem s (tableIndex 3 v)))
              (tableIndex 2 v))) (tableIndex 1 v)) with
          | false =>
              rw [hnone ht2 hp2' ⟨_, rfl⟩]
              simp
          | true =>
              obtain ⟨hh', _, ht3⟩ := h.table_entry hs hp1 (by simp) ht2 hp2'
              simp only [hh', Bool.and_false, Bool.not_true, Bool.false_eq_true, if_false]
              rw [walk]
              have hleaf : leafPos v =
                [tableIndex 3 v, tableIndex 2 v] ++ [tableIndex 1 v] ++ [tableIndex 0 v] := rfl
              rw [hleaf, entryAt_of_table ht3]
              split <;> rfl

/-- The kernel half of the boot memory is built outside the allocator's frames. -/
def KernelTables (base : Nat → Nat → Nat) (boot : Finset Nat) (kernelPml4 : Nat) : Prop :=
  ∀ i, hhdmPml4Index ≤ i → isPresent (base kernelPml4 i) = true →
    Avoids base boot 2 (tableOf (base kernelPml4 i))

/-- A top-level entry of the kernel half translates alike in all states, whichever
top-level table it is read from. -/
theorem translate_kernel {mem mem' base : Nat → Nat → Nat} {boot : Finset Nat}
    {k s s' v : Nat} (hkernel : KernelTables base boot k)
    (hmem : ∀ f, f ∉ boot → mem f = base f) (hmem' : ∀ f, f ∉ boot → mem' f = base f)
    (hv : KernelAddr v) (hword : mem' s' (tableIndex 3 v) = mem s (tableIndex 3 v))
    (hupper : mem s (tableIndex 3 v) = 0 ∨
      mem s (tableIndex 3 v) = base k (tableIndex 3 v)) :
    translate mem' s' v = translate mem s v := by
  rw [translate_top, translate_top, hword]
  cases hp : isPresent (mem s (tableIndex 3 v)) with
  | false => rfl
  | true =>
      have heq : mem s (tableIndex 3 v) = base k (tableIndex 3 v) := by
        rcases hupper with hz | heq
        · rw [hz] at hp
          simp at hp
        · exact heq
      have havoid := hkernel _ hv (heq ▸ hp)
      rw [← heq] at havoid
      rw [if_pos rfl, if_pos rfl, walk_congr hmem (by decide) havoid v,
        walk_congr hmem' (by decide) havoid v]

/-! ## The system -/

/-- The memory subsystem with its callers: the frames that callers hold and the
address spaces they have opened. -/
structure World where
  memory : Memory
  held : Finset Nat
  spaces : Finset Nat

/-- What callers do. -/
inductive Call
  | create
  | map (s p v flags : Nat)
  | unmap (s v : Nat)
  | unmapFree (s v : Nat)
  | destroy (s : Nat)
  | alloc
  | free (f : Nat)
  | fill (f : Nat) (words : Nat → Nat)

/-- Callers name address spaces that exist, map and free frames that they hold,
and write data to frames that are held or mapped. -/
def Call.Allowed (w : World) : Call → Prop
  | .create => True
  | .map s p _ _ => s ∈ w.spaces ∧ p ∈ w.held
  | .unmap s _ => s ∈ w.spaces
  | .unmapFree s _ => s ∈ w.spaces
  | .destroy s => s ∈ w.spaces
  | .alloc => True
  | .free f => f ∈ w.held
  | .fill f _ => f ∈ w.held ∨
      ∃ s ∈ w.spaces, ∃ v, UserPage v ∧ ∃ flags, translate w.memory.mem s v = some (f, flags)

/-- The frame a page is bound to. -/
def frameOf (w : World) (s v : Nat) : Finset Nat :=
  match translate w.memory.mem s v with
  | some (f, _) => {f}
  | none => ∅

/-- Run one call: its outcome, the memory it leaves, and who holds what after it. -/
def World.call (w : World) : Call → Except Nstatus Unit × World
  | .create =>
      match pagingAddrspaceCreate w.memory with
      | (.ok s, m) => (.ok (), { w with memory := m, spaces := insert s w.spaces })
      | (.error e, m) => (.error e, { w with memory := m })
  | .map s p v flags =>
      match pagingMapPage s p v flags w.memory with
      | (.ok (), m) => (.ok (), { w with memory := m, held := w.held.erase p })
      | (.error e, m) => (.error e, { w with memory := m })
  | .unmap s v =>
      match pagingUnmapPage s v w.memory with
      | (.ok (), m) => (.ok (), { w with memory := m, held := w.held ∪ frameOf w s v })
      | (.error e, m) => (.error e, { w with memory := m })
  | .unmapFree s v =>
      match pagingUnmapFreePage s v w.memory with
      | (r, m) => (r, { w with memory := m })
  | .destroy s =>
      match pagingAddrspaceDestroy s w.memory with
      | (r, m) => (r, { w with memory := m, spaces := w.spaces.erase s })
  | .alloc =>
      match pfaAlloc w.memory with
      | (.ok f, m) => (.ok (), { w with memory := m, held := insert f w.held })
      | (.error e, m) => (.error e, { w with memory := m })
  | .free f =>
      match pfaFree f w.memory with
      | (.ok (), m) => (.ok (), { w with memory := m, held := w.held.erase f })
      | (.error e, m) => (.error e, { w with memory := m })
  | .fill f words =>
      (.ok (), { w with memory := { w.memory with mem := Function.update w.memory.mem f words } })

/-- One step of the system. -/
def World.Step (w w' : World) : Prop :=
  ∃ c, Call.Allowed w c ∧ w' = (w.call c).2

/-- The states callers can bring about. -/
def World.Reachable : World → World → Prop :=
  Relation.ReflTransGen World.Step

/-- The state after boot: the free list holds the given frames, which are aligned
and addressable, and the kernel half is built from other memory. -/
structure Booted (boot : Finset Nat) (w : World) : Prop where
  allocator : ∃ free, Allocator w.memory free ∧ free.toFinset = boot
  frame : ∀ f ∈ boot, Frame f
  kernel : w.memory.kernelPml4 ∉ boot
  tables : KernelTables w.memory.mem boot w.memory.kernelPml4
  held : w.held = ∅
  spaces : w.spaces = ∅

/-- The account of a state. -/
def World.account (w : World) (boot : Finset Nat) (base : Nat → Nat → Nat) : Account :=
  { boot := boot, base := base, held := w.held, spaces := w.spaces }

/-- The invariant of the system. -/
structure World.Inv (w : World) (boot : Finset Nat) (w₀ : World) : Prop where
  ledger : ∃ free, Ledger w.memory (w.account boot w₀.memory.mem) free
  nx : w.memory.nxSupported = w₀.memory.nxSupported
  pml4 : w.memory.kernelPml4 = w₀.memory.kernelPml4

theorem Booted.inv {boot : Finset Nat} {w : World} (h : Booted boot w) : w.Inv boot w := by
  obtain ⟨free, halloc, hfree⟩ := h.allocator
  refine ⟨⟨free, ?_⟩, rfl, rfl⟩
  have hmem : ∀ f, f ∈ free ↔ f ∈ boot := by
    intro f
    rw [← hfree, List.mem_toFinset]
  exact {
    allocator := halloc
    frame := h.frame
    free_boot := fun f hf => (hmem f).mp hf
    held_boot := by simp [World.account, h.held]
    held_free := by simp [World.account, h.held]
    owned := by simp [World.account, h.spaces]
    unique := by simp [World.account, h.spaces]
    covered := fun f hf => Or.inl ((hmem f).mpr hf)
    tables := by simp [World.account, h.spaces]
    leaves := by simp [World.account, h.spaces]
    outside := fun _ _ => rfl
    kernel := h.kernel
    upper := by simp [World.account, h.spaces] }

/-! ## The partial maps -/

/-- The partial maps that the tables denote: the user half of every open address
space, and the kernel half of these and of the kernel itself. -/
structure Maps where
  spaces : Finset Nat
  user : Nat → Nat → Option (Nat × Nat)
  kernel : Nat → Nat → Option (Nat × Nat)

/-- Bind or unbind one page of one address space. -/
def Maps.set (M : Maps) (s v : Nat) (b : Option (Nat × Nat)) : Maps :=
  { M with user := Function.update M.user s (Function.update (M.user s) v b) }

/-- The partial maps of a state. -/
def World.maps (w : World) : Maps where
  spaces := w.spaces
  user s v := if s ∈ w.spaces ∧ UserPage v then translate w.memory.mem s v else none
  kernel s v :=
    if (s ∈ w.spaces ∨ s = w.memory.kernelPml4) ∧ KernelAddr v then
      translate w.memory.mem s v
    else none

/-- The flags a mapping call asks for, as the leaf carries them. -/
def requestedFlags (nx : Bool) (flags : Nat) : Nat :=
  (effectiveFlags nx flags &&& leafFlagMask) ||| pagePresent ||| pageUser

/-- What a call does to the partial maps.  A failing call does nothing, and so do
the calls that concern frames only. -/
def Maps.Spec (nx : Bool) (kernelPml4 : Nat) (M M' : Maps) : Call → Except Nstatus Unit → Prop
  | _, .error _ => M' = M
  | .create, .ok () => ∃ s, s ∉ M.spaces ∧ M'.spaces = insert s M.spaces ∧ M'.user = M.user ∧
      (∀ t, t ≠ s → M'.kernel t = M.kernel t) ∧
      (∀ v, tableIndex 3 v = hhdmPml4Index ∨ tableIndex 3 v = kernelPml4Index →
        M'.kernel s v = M.kernel kernelPml4 v)
  | .map s p v flags, .ok () =>
      M.user s v = none ∧ UserPage v ∧ M' = M.set s v (some (p, requestedFlags nx flags))
  | .unmap s v, .ok () => M.user s v ≠ none ∧ M' = M.set s v none
  | .unmapFree s v, .ok () => M.user s v ≠ none ∧ M' = M.set s v none
  | .destroy s, .ok () => M'.spaces = M.spaces.erase s ∧
      ∀ t, t ≠ s → M'.user t = M.user t ∧ M'.kernel t = M.kernel t
  | _, .ok () => M' = M

/-- The flag bits of an entry. -/
theorem flagsOf_or {p flags : Nat} (hp : Frame p)
    (hflags : flags &&& (entryAddrMask ^^^ 0xFFFFFFFFFFFFFFFF) = flags) :
    flagsOf (p ||| flags) = flags := by
  have hzero : p &&& (entryAddrMask ^^^ 0xFFFFFFFFFFFFFFFF) = 0 := by
    apply Nat.eq_of_testBit_eq
    intro i
    rw [Nat.zero_testBit, Nat.testBit_and, Nat.testBit_xor, testBit_entryAddrMask,
      show (0xFFFFFFFFFFFFFFFF : Nat) = 2 ^ 64 - 1 from rfl, Nat.testBit_two_pow_sub_one]
    by_cases hlow : 12 ≤ i
    · by_cases hhigh : i < 52
      · simp [hlow, hhigh, show i < 64 by omega]
      · simp [hp.testBit_high (Nat.le_of_not_lt hhigh)]
    · simp [hp.testBit_low (Nat.lt_of_not_le hlow)]
  rw [flagsOf, Nat.and_or_distrib_right, hzero, hflags, Nat.zero_or]

/-- The leaf carries the flags that were asked for. -/
theorem flagsOf_leafEntry {p : Nat} (hp : Frame p) (nx : Bool) (flags : Nat) :
    flagsOf (leafEntry p (effectiveFlags nx flags)) = requestedFlags nx flags := by
  have hreq : requestedFlags nx flags = (effectiveFlags nx flags &&& leafFlagMask) ||| 5 := by
    rw [requestedFlags, Nat.or_assoc]
    rfl
  rw [leafEntry_eq, hreq]
  refine flagsOf_or hp ?_
  rw [Nat.and_or_distrib_right, Nat.and_assoc]
  congr 1

theorem hasFlag_flagsOf_rw (entry : Nat) :
    hasFlag (flagsOf entry) pageRw = hasFlag entry pageRw := by
  rw [hasFlag_rw, hasFlag_rw, flagsOf, Nat.testBit_and,
    show Nat.testBit (entryAddrMask ^^^ 0xFFFFFFFFFFFFFFFF) 1 = true from rfl, Bool.and_true]

theorem hasFlag_flagsOf_user (entry : Nat) :
    hasFlag (flagsOf entry) pageUser = hasFlag entry pageUser := by
  rw [hasFlag_user, hasFlag_user, flagsOf, Nat.testBit_and,
    show Nat.testBit (entryAddrMask ^^^ 0xFFFFFFFFFFFFFFFF) 2 = true from rfl, Bool.and_true]

theorem hasFlag_flagsOf_nx (entry : Nat) :
    hasFlag (flagsOf entry) pageNx = hasFlag entry pageNx := by
  rw [hasFlag_nx, hasFlag_nx, flagsOf, Nat.testBit_and,
    show Nat.testBit (entryAddrMask ^^^ 0xFFFFFFFFFFFFFFFF) 63 = true from rfl, Bool.and_true]

/-! ## One call -/

section Step

variable {boot : Finset Nat} {base : Nat → Nat → Nat} {w : World}

/-- The kernel half is the same wherever the top-level words are. -/
theorem Ledger.maps_kernel {w' : World} {fs fs' : List Nat}
    (h : Ledger w.memory (w.account boot base) fs)
    (h' : Ledger w'.memory (w'.account boot base) fs')
    (hkernel : KernelTables base boot w.memory.kernelPml4)
    (hpml4 : w'.memory.kernelPml4 = w.memory.kernelPml4) {s : Nat}
    (hs : s ∈ w.spaces → s ∈ w'.spaces ∧
      ∀ i, hhdmPml4Index ≤ i → w'.memory.mem s i = w.memory.mem s i)
    (hs' : s ∈ w'.spaces → s ∈ w.spaces) : w'.maps.kernel s = w.maps.kernel s := by
  funext v
  have hcond : ((s ∈ w'.spaces ∨ s = w'.memory.kernelPml4) ∧ KernelAddr v) ↔
      ((s ∈ w.spaces ∨ s = w.memory.kernelPml4) ∧ KernelAddr v) := by
    rw [hpml4]
    have hiff : s ∈ w'.spaces ↔ s ∈ w.spaces := ⟨hs', fun h => (hs h).1⟩
    rw [hiff]
  simp only [World.maps, hcond]
  split
  next hv =>
    have hkb : w.memory.kernelPml4 ∉ boot := h.kernel
    refine translate_kernel hkernel h.outside h'.outside hv.2 ?_ ?_
    · rcases hv.1 with hmem | rfl
      · exact (hs hmem).2 _ hv.2
      · rw [h.outside _ hkb, h'.outside _ hkb]
        rfl
    · rcases hv.1 with hmem | rfl
      · exact h.upper s hmem _ hv.2
      · right
        rw [h.outside _ hkb]
        rfl
  next => rfl

/-- The user half changes as the leaves do. -/
theorem Ledger.maps_user {w' : World} {fs fs' : List Nat}
    (h : Ledger w.memory (w.account boot base) fs)
    (h' : Ledger w'.memory (w'.account boot base) fs') {s : Nat}
    (hs : s ∈ w'.spaces ↔ s ∈ w.spaces)
    (hsame : s ∈ w.spaces → ∀ p, UserPos p → p.length = 4 →
      entryAt w'.memory.mem s p = entryAt w.memory.mem s p) :
    w'.maps.user s = w.maps.user s := by
  funext v
  simp only [World.maps, hs]
  split
  next hv =>
    rw [h.translate_user hv.1 hv.2.1, h'.translate_user (hs.mpr hv.1) hv.2.1,
      hsame hv.1 _ (userPos_leafPos hv.2.1) rfl]
  next => rfl

/-- Whatever leaves the leaves and the kernel half alone leaves the maps alone. -/
theorem Ledger.maps_eq (w' : World) {fs fs' : List Nat}
    (h : Ledger w.memory (w.account boot base) fs)
    (h' : Ledger w'.memory (w'.account boot base) fs')
    (hkernel : KernelTables base boot w.memory.kernelPml4)
    (hspaces : w'.spaces = w.spaces) (hsame : SameLeaves w.memory w'.memory w.spaces)
    (hsteady : Steady w.memory w'.memory w.spaces) : w'.maps = w.maps := by
  have huser : w'.maps.user = w.maps.user :=
    funext fun s => h.maps_user h' (by rw [hspaces]) (hsame s)
  have hk : w'.maps.kernel = w.maps.kernel :=
    funext fun s => h.maps_kernel h' hkernel hsteady.pml4
      (fun hs => ⟨hspaces ▸ hs, hsteady.upper s hs⟩) (fun hs => hspaces ▸ hs)
  calc w'.maps = ⟨w'.spaces, w'.maps.user, w'.maps.kernel⟩ := rfl
    _ = ⟨w.spaces, w.maps.user, w.maps.kernel⟩ := by rw [hspaces, huser, hk]

/-- Changing one leaf binds or unbinds one page. -/
theorem Ledger.maps_set (w' : World) {fs fs' : List Nat}
    (h : Ledger w.memory (w.account boot base) fs)
    (h' : Ledger w'.memory (w'.account boot base) fs')
    (hkernel : KernelTables base boot w.memory.kernelPml4)
    (hspaces : w'.spaces = w.spaces) {s v : Nat} (hs : s ∈ w.spaces) (hv : UserPage v)
    {e : Option Nat} (hupd : UpdatedLeaf w.memory w'.memory w.spaces s (leafPos v) e)
    (hsteady : Steady w.memory w'.memory w.spaces) :
    w'.maps = w.maps.set s v (e.map (fun e => (tableOf e, flagsOf e))) := by
  have hk : w'.maps.kernel = w.maps.kernel :=
    funext fun t => h.maps_kernel h' hkernel hsteady.pml4
      (fun ht => ⟨hspaces ▸ ht, hsteady.upper t ht⟩) (fun ht => hspaces ▸ ht)
  have huser : w'.maps.user =
      (w.maps.set s v (e.map (fun e => (tableOf e, flagsOf e)))).user := by
    funext t
    by_cases hts : t = s
    · subst hts
      simp only [Maps.set, Function.update_self]
      funext u
      by_cases huv : u = v
      · subst huv
        simp only [Function.update_self, World.maps, hspaces, hs, hv, and_self, if_true]
        rw [h'.translate_user (hspaces ▸ hs : t ∈ w'.spaces) hv.1,
          hupd t hs _ (userPos_leafPos hv.1) rfl, if_pos ⟨rfl, rfl⟩]
      · simp only [Function.update_of_ne huv, World.maps, hspaces, hs, true_and]
        split
        next hu =>
          rw [h.translate_user hs hu.1, h'.translate_user (hspaces ▸ hs : t ∈ w'.spaces) hu.1,
            hupd t hs _ (userPos_leafPos hu.1) rfl, if_neg]
          rintro ⟨_, hpos⟩
          exact huv (leafPos_inj hu.1 hv.1 hu.2 hv.2 hpos)
        next => rfl
    · simp only [Maps.set, Function.update_of_ne hts]
      refine h.maps_user h' (by rw [hspaces]) (fun ht p hp hlen => ?_)
      rw [hupd t ht p hp hlen, if_neg (fun hcon => hts hcon.1)]
  calc w'.maps = ⟨w'.spaces, w'.maps.user, w'.maps.kernel⟩ := rfl
    _ = w.maps.set s v (e.map (fun e => (tableOf e, flagsOf e))) := by
      rw [hspaces, huser, hk]
      rfl

/-- A call keeps the invariant and meets its specification. -/
def Simulated (boot : Finset Nat) (w₀ w : World) (c : Call) : Prop :=
  (w.call c).2.Inv boot w₀ ∧
    Maps.Spec w₀.memory.nxSupported w₀.memory.kernelPml4 w.maps (w.call c).2.maps c (w.call c).1

variable {w₀ : World}

theorem Simulated.of_call {c : Call} {r : Except Nstatus Unit} {w' : World}
    (hcall : w.call c = (r, w')) (hinv : w'.Inv boot w₀)
    (hspec : Maps.Spec w₀.memory.nxSupported w₀.memory.kernelPml4 w.maps w'.maps c r) :
    Simulated boot w₀ w c := by
  rw [Simulated, hcall]
  exact ⟨hinv, hspec⟩

theorem simulated_map (h : w.Inv boot w₀)
    (hk : KernelTables w₀.memory.mem boot w₀.memory.kernelPml4) {s p : Nat}
    (hs : s ∈ w.spaces) (hp : p ∈ w.held) (v flags : Nat) :
    Simulated boot w₀ w (.map s p v flags) := by
  obtain ⟨fs, hled⟩ := h.ledger
  have hframe : Frame p := hled.frame p (hled.held_boot p hp)
  have hpost := hled.pagingMapPage_post hs hp v flags
  rw [← h.pml4] at hk
  unfold Eff.Post at hpost
  cases hrun : pagingMapPage s p v flags w.memory with
  | mk r m' =>
      rw [hrun] at hpost
      rcases hpost with ⟨rfl, hm⟩ | ⟨e, rfl, hg⟩
      · obtain ⟨fs', hled'⟩ := hm.ledger
        have hv : UserPage v := ⟨hm.args.user, hm.args.aligned⟩
        have hcall : w.call (.map s p v flags) =
            (.ok (), { w with memory := m', held := w.held.erase p }) := by
          simp only [World.call, hrun]
        refine Simulated.of_call hcall
          ⟨⟨fs', hled'⟩, hm.steady.nx.trans h.nx, hm.steady.pml4.trans h.pml4⟩ ⟨?_, hv, ?_⟩
        · simp only [World.maps, hs, hv, and_self, if_true]
          rw [hled.translate_user hs hv.1, hm.unbound]
          rfl
        · have hset := hled.maps_set { w with memory := m', held := w.held.erase p }
            hled' hk rfl hs hv hm.leaf hm.steady
          rw [hset, Option.map_some, tableOf_leafEntry hframe, flagsOf_leafEntry hframe, h.nx]
      · obtain ⟨fs', hled'⟩ := hg.ledger
        have hcall : w.call (.map s p v flags) =
            (.error e, { w with memory := m' }) := by
          simp only [World.call, hrun]
        exact Simulated.of_call hcall
          ⟨⟨fs', hled'⟩, hg.steady.nx.trans h.nx, hg.steady.pml4.trans h.pml4⟩
          (hled.maps_eq _ hled' hk rfl hg.leaves hg.steady)

theorem simulated_unmap (h : w.Inv boot w₀)
    (hk : KernelTables w₀.memory.mem boot w₀.memory.kernelPml4) {s : Nat}
    (hs : s ∈ w.spaces) (v : Nat) : Simulated boot w₀ w (.unmap s v) := by
  obtain ⟨fs, hled⟩ := h.ledger
  have hpost := hled.pagingUnmapPage_post hs v
  rw [← h.pml4] at hk
  unfold Eff.Post at hpost
  cases hrun : pagingUnmapPage s v w.memory with
  | mk r m' =>
      rw [hrun] at hpost
      rcases hpost with ⟨e, rfl, hm, hled'⟩ | ⟨e, rfl, rfl, _⟩
      · have htr : translate w.memory.mem s v = some (tableOf e, flagsOf e) := by
          rw [hled.translate_user hs hm.user, hm.bound]
          rfl
        have hheld : w.held ∪ frameOf w s v = insert (tableOf e) w.held := by
          rw [frameOf, htr, Finset.union_comm]
          rfl
        have hled'' : Ledger m' (World.account { w with
            memory := m', held := w.held ∪ frameOf w s v } boot w₀.memory.mem) fs := by
          rw [hheld]
          exact hled'
        have hv : UserPage v := ⟨hm.user, hm.aligned⟩
        have hcall : w.call (.unmap s v) =
            (.ok (), { w with memory := m', held := w.held ∪ frameOf w s v }) := by
          simp only [World.call, hrun]
        refine Simulated.of_call hcall
          ⟨⟨fs, hled''⟩, hm.steady.nx.trans h.nx, hm.steady.pml4.trans h.pml4⟩
          ⟨?_, hled.maps_set { w with memory := m', held := w.held ∪ frameOf w s v }
            hled'' hk rfl hs hv hm.leaf hm.steady⟩
        simp [World.maps, hs, hv, htr]
      · have hcall : w.call (.unmap s v) =
            (.error e, w) := by
          simp only [World.call, hrun]
        exact Simulated.of_call hcall h rfl

theorem simulated_unmapFree (h : w.Inv boot w₀)
    (hk : KernelTables w₀.memory.mem boot w₀.memory.kernelPml4) {s : Nat}
    (hs : s ∈ w.spaces) (v : Nat) : Simulated boot w₀ w (.unmapFree s v) := by
  obtain ⟨fs, hled⟩ := h.ledger
  have hpost := hled.pagingUnmapFreePage_post hs v
  rw [← h.pml4] at hk
  unfold Eff.Post at hpost
  cases hrun : pagingUnmapFreePage s v w.memory with
  | mk r m' =>
      rw [hrun] at hpost
      rcases hpost with ⟨e, rfl, hm, hled'⟩ | ⟨e, rfl, rfl, _⟩
      · have hv : UserPage v := ⟨hm.user, hm.aligned⟩
        have hcall : w.call (.unmapFree s v) =
            (.ok (), { w with memory := m' }) := by
          simp only [World.call, hrun]
        refine Simulated.of_call hcall
          ⟨⟨_, hled'⟩, hm.steady.nx.trans h.nx, hm.steady.pml4.trans h.pml4⟩
          ⟨?_, hled.maps_set { w with memory := m' } hled' hk rfl hs hv hm.leaf hm.steady⟩
        have htr : translate w.memory.mem s v = some (tableOf e, flagsOf e) := by
          rw [hled.translate_user hs hm.user, hm.bound]
          rfl
        simp [World.maps, hs, hv, htr]
      · have hcall : w.call (.unmapFree s v) =
            (.error e, w) := by
          simp only [World.call, hrun]
        exact Simulated.of_call hcall h rfl

theorem simulated_create (h : w.Inv boot w₀)
    (hk : KernelTables w₀.memory.mem boot w₀.memory.kernelPml4) :
    Simulated boot w₀ w .create := by
  obtain ⟨fs, hled⟩ := h.ledger
  have hpost := hled.pagingAddrspaceCreate_post
  unfold Eff.Post at hpost
  cases hrun : pagingAddrspaceCreate w.memory with
  | mk r m' =>
      rw [hrun] at hpost
      rcases hpost with ⟨s, fs', rfl, _, hnew, hled', hempty, hhhdm, hkern, hsame, hsteady⟩ |
        ⟨e, rfl, rfl⟩
      swap
      · have hcall : w.call .create =
            (.error e, w) := by
          simp only [World.call, hrun]
        exact Simulated.of_call hcall h rfl
      have hk' : KernelTables w₀.memory.mem boot w.memory.kernelPml4 := h.pml4 ▸ hk
      have hled'' : Ledger m' (World.account { w with
          memory := m', spaces := insert s w.spaces } boot w₀.memory.mem) fs' := hled'
      have hmem : ∀ t, t ≠ s → (t ∈ insert s w.spaces ↔ t ∈ w.spaces) := by
        intro t ht
        simp [ht]
      have hcall : w.call .create =
          (.ok (), { w with memory := m', spaces := insert s w.spaces }) := by
        simp only [World.call, hrun]
      refine Simulated.of_call hcall
        ⟨⟨fs', hled''⟩, hsteady.nx.trans h.nx, hsteady.pml4.trans h.pml4⟩
        ⟨s, hnew, rfl, ?_, ?_, ?_⟩
      · funext t
        by_cases hts : t = s
        · subst hts
          funext v
          have hnew' : t ∉ w.spaces := hnew
          simp only [World.maps, hnew', false_and, if_false, Finset.mem_insert_self, true_and]
          split
          next hv =>
            rw [hled''.translate_user (Finset.mem_insert_self t w.spaces) hv.1,
              hempty _ (userPos_leafPos hv.1)]
            rfl
          next => rfl
        · exact hled.maps_user hled'' (hmem t hts) (fun ht p hp _ => hsame t ht p hp)
      · intro t hts
        exact hled.maps_kernel hled'' hk' hsteady.pml4
          (fun ht => ⟨(hmem t hts).mpr ht, hsteady.upper t ht⟩) (hmem t hts).mp
      · intro v hv
        have hka : KernelAddr v := by
          rcases hv with hv | hv <;> simp [KernelAddr, hv, hhdmPml4Index, kernelPml4Index]
        have hkb : w.memory.kernelPml4 ∉ boot := hled.kernel
        have hkw : ∀ i, w.memory.mem w.memory.kernelPml4 i =
            w₀.memory.mem w.memory.kernelPml4 i := by
          intro i
          rw [hled.outside _ hkb]
          rfl
        rw [← h.pml4]
        simp only [World.maps, Finset.mem_insert_self, true_or, or_true, hka, and_self, if_true]
        refine translate_kernel hk' hled.outside hled''.outside hka ?_ (Or.inr (hkw _))
        rw [hkw]
        rcases hv with hv | hv
        · rw [hv]
          exact hhhdm
        · rw [hv]
          exact hkern

theorem simulated_destroy (h : w.Inv boot w₀)
    (hk : KernelTables w₀.memory.mem boot w₀.memory.kernelPml4) {s : Nat}
    (hs : s ∈ w.spaces) : Simulated boot w₀ w (.destroy s) := by
  obtain ⟨fs, hled⟩ := h.ledger
  obtain ⟨hrun, hled', hsame, hsteady⟩ := hled.pagingAddrspaceDestroy_run hs
  have hk' : KernelTables w₀.memory.mem boot w.memory.kernelPml4 := h.pml4 ▸ hk
  have hled'' : Ledger _ (World.account { w with
      memory := releaseAll w.memory (spaceFrames w.memory.mem s),
      spaces := w.spaces.erase s } boot w₀.memory.mem) _ := hled'
  have hmem : ∀ t, t ≠ s → (t ∈ w.spaces.erase s ↔ t ∈ w.spaces) := by
    intro t ht
    simp [ht]
  have hcall : w.call (.destroy s) = (.ok (), { w with
      memory := releaseAll w.memory (spaceFrames w.memory.mem s),
      spaces := w.spaces.erase s }) := by
    simp only [World.call, hrun]
  refine Simulated.of_call hcall
    ⟨⟨_, hled''⟩, hsteady.nx.trans h.nx, hsteady.pml4.trans h.pml4⟩ ⟨rfl, ?_⟩
  intro t hts
  refine ⟨hled.maps_user hled'' (hmem t hts) (fun ht p hp _ => ?_),
    hled.maps_kernel hled'' hk' hsteady.pml4 (fun ht => ⟨(hmem t hts).mpr ht, ?_⟩)
      (hmem t hts).mp⟩
  · exact hsame t ((hmem t hts).mpr ht) p hp
  · exact hsteady.upper t ((hmem t hts).mpr ht)

theorem simulated_alloc (h : w.Inv boot w₀)
    (hk : KernelTables w₀.memory.mem boot w₀.memory.kernelPml4) :
    Simulated boot w₀ w .alloc := by
  obtain ⟨fs, hled⟩ := h.ledger
  rw [← h.pml4] at hk
  cases fs with
  | nil =>
      have hcall : w.call .alloc = (.error .NoutOfMemory, w) := by
        simp only [World.call, pfaAlloc_nil hled.allocator]
      exact Simulated.of_call hcall h rfl
  | cons f fs =>
      obtain ⟨hled', hsame, hsteady⟩ := hled.alloc
      have hcall : w.call .alloc =
          (.ok (), { w with memory := popFree w.memory, held := insert f w.held }) := by
        simp only [World.call, pfaAlloc_cons hled.allocator]
      exact Simulated.of_call hcall
        ⟨⟨fs, hled'⟩, hsteady.nx.trans h.nx, hsteady.pml4.trans h.pml4⟩
        (hled.maps_eq _ hled' hk rfl hsame.leaves hsteady)

theorem simulated_free (h : w.Inv boot w₀)
    (hk : KernelTables w₀.memory.mem boot w₀.memory.kernelPml4) {f : Nat} (hf : f ∈ w.held) :
    Simulated boot w₀ w (.free f) := by
  obtain ⟨fs, hled⟩ := h.ledger
  rw [← h.pml4] at hk
  have hframe : Frame f := hled.frame f (hled.held_boot f hf)
  obtain ⟨hled', hsame, hsteady⟩ := hled.release hf
  have hcall : w.call (.free f) =
      (.ok (), { w with memory := pushFree w.memory f, held := w.held.erase f }) := by
    simp only [World.call, pfaFree_push hframe.ne_zero hframe.aligned]
  exact Simulated.of_call hcall
    ⟨⟨_, hled'⟩, hsteady.nx.trans h.nx, hsteady.pml4.trans h.pml4⟩
    (hled.maps_eq _ hled' hk rfl hsame.leaves hsteady)

theorem simulated_fill (h : w.Inv boot w₀)
    (hk : KernelTables w₀.memory.mem boot w₀.memory.kernelPml4) {f : Nat}
    {words : Nat → Nat} (hc : Call.Allowed w (.fill f words)) :
    Simulated boot w₀ w (.fill f words) := by
  obtain ⟨fs, hled⟩ := h.ledger
  rw [← h.pml4] at hk
  have hdata : DataFrame w.memory (w.account boot w₀.memory.mem) f := by
    rcases hc with hf | ⟨s, hs, v, hv, flags, htr⟩
    · exact Or.inl hf
    · refine Or.inr ⟨s, hs, leafPos v, userPos_leafPos hv.1, rfl, ?_⟩
      rw [hled.translate_user hs hv.1] at htr
      rw [tableAt_of_ne_nil s (by simp [leafPos])]
      cases he : entryAt w.memory.mem s (leafPos v) with
      | none =>
          rw [he] at htr
          cases htr
      | some e =>
          rw [he] at htr
          cases htr
          rfl
  obtain ⟨hled', hsame, hsteady⟩ := hled.scribble hdata words
  exact Simulated.of_call rfl
    ⟨⟨fs, hled'⟩, hsteady.nx.trans h.nx, hsteady.pml4.trans h.pml4⟩
    (hled.maps_eq _ hled' hk rfl hsame.leaves hsteady)

/-- Every allowed call keeps the invariant and meets its specification. -/
theorem World.Inv.simulated (h : w.Inv boot w₀)
    (hk : KernelTables w₀.memory.mem boot w₀.memory.kernelPml4) {c : Call}
    (hc : Call.Allowed w c) : Simulated boot w₀ w c := by
  cases c with
  | create => exact simulated_create h hk
  | map s p v flags => exact simulated_map h hk hc.1 hc.2 v flags
  | unmap s v => exact simulated_unmap h hk hc v
  | unmapFree s v => exact simulated_unmapFree h hk hc v
  | destroy s => exact simulated_destroy h hk hc
  | alloc => exact simulated_alloc h hk
  | free f => exact simulated_free h hk hc
  | fill f words => exact simulated_fill h hk hc

/-- The invariant holds in every reachable state. -/
theorem Booted.reachable_inv (h : Booted boot w₀) (hr : World.Reachable w₀ w) :
    w.Inv boot w₀ := by
  induction hr with
  | refl => exact h.inv
  | tail _ hstep ih =>
      obtain ⟨c, hc, rfl⟩ := hstep
      exact (ih.simulated h.tables hc).1

/-- In a reachable state no user page is writable and executable. -/
theorem World.Inv.writeXorExecute (h : w.Inv boot w₀) (hnx : w₀.memory.nxSupported = true)
    {s v f flags : Nat} (hb : w.maps.user s v = some (f, flags)) :
    ¬ (hasFlag flags pageRw = true ∧ hasFlag flags pageNx = false) := by
  obtain ⟨fs, hled⟩ := h.ledger
  simp only [World.maps] at hb
  split at hb
  swap
  · cases hb
  next hs =>
  rw [hled.translate_user hs.1 hs.2.1] at hb
  cases he : entryAt w.memory.mem s (leafPos v) with
  | none =>
      rw [he] at hb
      cases hb
  | some e =>
      rw [he] at hb
      cases hb
      obtain ⟨g, fl, hg, rfl, hwx⟩ := hled.leaves s hs.1 _ (userPos_leafPos hs.2.1) rfl e he
      rw [hasFlag_flagsOf_rw, hasFlag_flagsOf_nx, hasFlag_leafEntry_rw hg,
        hasFlag_leafEntry_nx hg]
      rintro ⟨hrw, hx⟩
      rw [hwx (h.nx.trans hnx) hrw] at hx
      cases hx

end Step

/-- Unmapping a bound page succeeds. -/
theorem World.Inv.unmap_bound {boot : Finset Nat} {w₀ w : World} (h : w.Inv boot w₀)
    {s v : Nat} (hv : v ≠ 0) (hbound : w.maps.user s v ≠ none) :
    (w.call (.unmap s v)).1 = .ok () ∧ (w.call (.unmapFree s v)).1 = .ok () := by
  obtain ⟨fs, hled⟩ := h.ledger
  have hcond : s ∈ w.spaces ∧ UserPage v := by
    by_contra hcon
    exact hbound (if_neg hcon)
  have hentry : ¬ Unbound w.memory s v := by
    intro hun
    apply hbound
    simp only [World.maps]
    rw [if_pos hcond, hled.translate_user hcond.1 hcond.2.1, hun hv hcond.2.2 hcond.2.1]
    rfl
  constructor
  · have hpost := hled.pagingUnmapPage_post hcond.1 v
    unfold Eff.Post at hpost
    cases hrun : pagingUnmapPage s v w.memory with
    | mk r m' =>
        rw [hrun] at hpost
        rcases hpost with ⟨_, rfl, _⟩ | ⟨_, _, _, hun⟩
        · simp only [World.call, hrun]
        · exact absurd hun hentry
  · have hpost := hled.pagingUnmapFreePage_post hcond.1 v
    unfold Eff.Post at hpost
    cases hrun : pagingUnmapFreePage s v w.memory with
    | mk r m' =>
        rw [hrun] at hpost
        rcases hpost with ⟨_, rfl, _⟩ | ⟨_, _, _, hun⟩
        · simp only [World.call, hrun]
        · exact absurd hun hentry

/-- The page tables refine partial maps.  In every state that callers can bring
about after boot, each call acts on the walked tables as its specification says,
mapping a bound page is rejected, unmapping it succeeds, and with NX no user page
is writable and executable. -/
theorem paging_refines_maps {boot : Finset Nat} {w₀ w : World} (h : Booted boot w₀)
    (hr : World.Reachable w₀ w) :
    (∀ c, Call.Allowed w c → Maps.Spec w₀.memory.nxSupported w₀.memory.kernelPml4
      w.maps (w.call c).2.maps c (w.call c).1) ∧
    (∀ s p v flags, Call.Allowed w (.map s p v flags) → w.maps.user s v ≠ none →
      ∃ e, (w.call (.map s p v flags)).1 = .error e) ∧
    (∀ s v, v ≠ 0 → w.maps.user s v ≠ none →
      (w.call (.unmap s v)).1 = .ok () ∧ (w.call (.unmapFree s v)).1 = .ok ()) ∧
    (w₀.memory.nxSupported = true → ∀ s v f flags, w.maps.user s v = some (f, flags) →
      ¬ (hasFlag flags pageRw = true ∧ hasFlag flags pageNx = false)) := by
  have hinv := h.reachable_inv hr
  refine ⟨fun c hc => (hinv.simulated h.tables hc).2, ?_, ?_, ?_⟩
  · intro s p v flags hc hbound
    have hspec := (hinv.simulated h.tables hc).2
    cases hres : (w.call (.map s p v flags)).1 with
    | error e => exact ⟨e, rfl⟩
    | ok u =>
        rw [hres] at hspec
        exact absurd hspec.1 hbound
  · intro s v hv hbound
    exact hinv.unmap_bound hv hbound
  · intro hnx s v f flags hb
    exact hinv.writeXorExecute hnx hb

/-! ## A small machine -/

/-- Six free frames, a kernel top-level table and one table below it that maps a
large page. -/
def smallMemory : Memory where
  mem f i :=
    if f = 0x100000 ∧ i = hhdmPml4Index then 0x101003
    else if f = 0x101000 ∧ i = 0 then 0x83
    else if f < 0x6000 ∧ i = 0 then f + 0x1000
    else 0
  freeHead := 0x1000
  freeCount := 6
  nxSupported := true
  kernelPml4 := 0x100000

/-- The frames of the small machine. -/
def smallFrames : Finset Nat :=
  {0x1000, 0x2000, 0x3000, 0x4000, 0x5000, 0x6000}

/-- The small machine after boot. -/
def smallWorld : World where
  memory := smallMemory
  held := ∅
  spaces := ∅

theorem booted_smallWorld : Booted smallFrames smallWorld where
  allocator := by
    refine ⟨[0x1000, 0x2000, 0x3000, 0x4000, 0x5000, 0x6000], ⟨?_, by decide⟩, by decide⟩
    simp [FreeList, smallWorld, smallMemory]
  frame := by
    intro f hf
    simp only [smallFrames, Finset.mem_insert, Finset.mem_singleton] at hf
    rcases hf with rfl | rfl | rfl | rfl | rfl | rfl <;>
      exact ⟨by decide, by decide, by decide⟩
  kernel := by decide
  tables := by
    intro i hi hp
    have hi' : i = hhdmPml4Index := by
      by_contra hne
      simp [smallWorld, smallMemory, hne] at hp
    subst hi'
    refine ⟨by decide, fun j hj hh => ?_⟩
    have hj' : j = 0 := by
      by_contra hne
      simp [smallWorld, smallMemory, hne, tableOf, entryAddrMask] at hj
    subst hj'
    exact absurd hh (by decide)
  held := rfl
  spaces := rfl

/-- The small machine with one address space and one held frame. -/
def smallReady : World :=
  ((smallWorld.call .create).2.call .alloc).2

/-- Map the held frame at 4 MiB, writable and not executable. -/
def smallMap : Call :=
  .map 0x1000 0x2000 0x400000 (pageRw ||| pageNx)

theorem paging_refines_maps_small :
    (smallReady.call smallMap).1 = .ok () ∧
      Maps.Spec true 0x100000 smallReady.maps (smallReady.call smallMap).2.maps smallMap
        (smallReady.call smallMap).1 := by
  have hreach : World.Reachable smallWorld smallReady :=
    (Relation.ReflTransGen.refl.tail ⟨.create, trivial, rfl⟩).tail ⟨.alloc, trivial, rfl⟩
  have hallowed : Call.Allowed smallReady smallMap := ⟨by decide, by decide⟩
  exact ⟨rfl, (paging_refines_maps booted_smallWorld hreach).1 smallMap hallowed⟩

end Mm
end Nyxis
