import Nyxis.Lib.Effect
import Nyxis.Status
import Mathlib.Data.List.Nodup
import Mathlib.Data.UInt

/-!
# The physical frame allocator

The allocator of {lit}`kernel/mm/pfa.c` keeps its free frames in a singly linked
list that is threaded through the frames themselves: the first word of a free
frame holds the address of the next one.

Physical memory is seen frame by frame.  A frame is named by its physical base
address and is an array of 64-bit words, and a kernel pointer into the direct
map is identified with the physical address it stands for.

Main results:

- Definition {lit}`FreeList`: the list that the links spell out.
- Theorem {lit}`pfaAlloc_cons`: what a successful allocation does.
- Theorem {lit}`pfaFree_push`: what a successful release does.
-/

namespace Nyxis
namespace Mm

/-- Size of a page and of a physical frame. -/
def pageSize : Nat := 4096

/-- Physical memory, the allocator's globals and the paging globals. -/
structure Memory where
  /-- The words of every frame. -/
  mem : Nat → Nat → Nat
  /-- {lit}`g_free_head`: the first free frame, or zero. -/
  freeHead : Nat
  /-- {lit}`g_free_count`. -/
  freeCount : UInt64
  /-- {lit}`g_nx_supported`. -/
  nxSupported : Bool
  /-- {lit}`g_pml4`: the kernel's top-level table, or zero before paging is set up. -/
  kernelPml4 : Nat

/-- Computations of the memory subsystem. -/
abbrev MemM := Eff Nstatus Memory

/-- Store one word of a frame. -/
def Memory.store (m : Memory) (frame idx word : Nat) : Memory :=
  { m with mem := Function.update m.mem frame (Function.update (m.mem frame) idx word) }

/-- Clear every word of a frame. -/
def Memory.clear (m : Memory) (frame : Nat) : Memory :=
  { m with mem := Function.update m.mem frame (fun _ => 0) }

@[simp]
theorem Memory.store_mem_same (m : Memory) (frame idx word : Nat) :
    (m.store frame idx word).mem frame idx = word := by
  simp [Memory.store]

theorem Memory.store_mem_of_ne (m : Memory) {frame idx word f i : Nat}
    (h : f ≠ frame ∨ i ≠ idx) :
    (m.store frame idx word).mem f i = m.mem f i := by
  by_cases hf : f = frame
  · subst hf
    have hi : i ≠ idx := by
      rcases h with h | h
      · exact absurd rfl h
      · exact h
    simp [Memory.store, hi]
  · simp [Memory.store, hf]

theorem Memory.store_mem_frame (m : Memory) {frame idx word f : Nat} (h : f ≠ frame) :
    (m.store frame idx word).mem f = m.mem f := by
  simp [Memory.store, h]

@[simp]
theorem Memory.clear_mem_same (m : Memory) (frame i : Nat) :
    (m.clear frame).mem frame i = 0 := by
  simp [Memory.clear]

theorem Memory.clear_mem_of_ne (m : Memory) {frame f : Nat} (h : f ≠ frame) :
    (m.clear frame).mem f = m.mem f := by
  simp [Memory.clear, h]

@[simp]
theorem Memory.store_freeHead (m : Memory) (frame idx word : Nat) :
    (m.store frame idx word).freeHead = m.freeHead :=
  rfl

@[simp]
theorem Memory.store_nxSupported (m : Memory) (frame idx word : Nat) :
    (m.store frame idx word).nxSupported = m.nxSupported :=
  rfl

@[simp]
theorem Memory.store_kernelPml4 (m : Memory) (frame idx word : Nat) :
    (m.store frame idx word).kernelPml4 = m.kernelPml4 :=
  rfl

/-! ## Allocation and release -/

/-- {lit}`push_free_locked`: thread a frame in front of the free list. -/
def pushFree (m : Memory) (phys : Nat) : Memory :=
  { m.store phys 0 m.freeHead with freeHead := phys, freeCount := m.freeCount + 1 }

/-- The state after the first free frame has been unlinked and cleared. -/
def popFree (m : Memory) : Memory :=
  { m.clear m.freeHead with
    freeHead := m.mem m.freeHead 0, freeCount := m.freeCount - 1 }

/-- {lit}`pfa_alloc`: unlink the first free frame and clear it. -/
def pfaAlloc : MemM Nat := do
  let phys ← Eff.gets Memory.freeHead
  if phys = 0 then
    Eff.fail .NoutOfMemory
  else
    Eff.modify popFree
    pure phys

/-- {lit}`pfa_free`: put a frame back in front of the free list. -/
def pfaFree (phys : Nat) : MemM Unit :=
  if phys = 0 ∨ phys % pageSize ≠ 0 then
    Eff.fail .NinvalidArg
  else
    Eff.modify (fun m => pushFree m phys)

/-! ## The threaded list -/

/-- Following the links from an address visits exactly the given frames. -/
def FreeList (mem : Nat → Nat → Nat) : Nat → List Nat → Prop
  | head, [] => head = 0
  | head, f :: fs => head = f ∧ f ≠ 0 ∧ FreeList mem (mem f 0) fs

instance decidableFreeList (mem : Nat → Nat → Nat) :
    (head : Nat) → (fs : List Nat) → Decidable (FreeList mem head fs)
  | head, [] => inferInstanceAs (Decidable (head = 0))
  | head, f :: fs =>
      have := decidableFreeList mem (mem f 0) fs
      inferInstanceAs (Decidable (head = f ∧ f ≠ 0 ∧ FreeList mem (mem f 0) fs))

/-- The list is determined by the first words of its own frames. -/
theorem FreeList.congr {mem mem' : Nat → Nat → Nat} {head : Nat} {fs : List Nat}
    (h : FreeList mem head fs) (hmem : ∀ f ∈ fs, mem' f 0 = mem f 0) :
    FreeList mem' head fs := by
  induction fs generalizing head with
  | nil => exact h
  | cons f fs ih =>
      obtain ⟨hhead, hne, hrest⟩ := h
      refine ⟨hhead, hne, ?_⟩
      rw [hmem f (List.mem_cons_self ..)]
      exact ih hrest (fun g hg => hmem g (List.mem_cons_of_mem f hg))

/-- An empty head denotes the empty list only. -/
theorem FreeList.eq_nil_of_zero {mem : Nat → Nat → Nat} {fs : List Nat}
    (h : FreeList mem 0 fs) : fs = [] := by
  cases fs with
  | nil => rfl
  | cons f fs => exact absurd h.1.symm h.2.1

/-- A head denotes one list only. -/
theorem FreeList.unique {mem : Nat → Nat → Nat} {head : Nat} {fs gs : List Nat}
    (h : FreeList mem head fs) (h' : FreeList mem head gs) : fs = gs := by
  induction fs generalizing head gs with
  | nil =>
      have hzero : head = 0 := h
      subst hzero
      exact h'.eq_nil_of_zero.symm
  | cons f fs ih =>
      cases gs with
      | nil => exact absurd (h.1.symm.trans h') h.2.1
      | cons g gs =>
          obtain rfl : f = g := h.1.symm.trans h'.1
          rw [ih h.2.2 h'.2.2]

/-- The allocator's view of memory: a duplicate-free list of free frames. -/
structure Allocator (m : Memory) (free : List Nat) : Prop where
  list : FreeList m.mem m.freeHead free
  nodup : free.Nodup

/-- Allocation fails exactly on the empty list and then changes nothing. -/
theorem pfaAlloc_nil {m : Memory} (h : Allocator m []) :
    pfaAlloc m = (.error .NoutOfMemory, m) := by
  have hhead : m.freeHead = 0 := h.list
  simp [pfaAlloc, hhead]

/-- Allocation hands out the first free frame, cleared, and keeps the rest. -/
theorem pfaAlloc_cons {m : Memory} {f : Nat} {fs : List Nat}
    (h : Allocator m (f :: fs)) : pfaAlloc m = (.ok f, popFree m) := by
  obtain ⟨hhead, hne, _⟩ := h.list
  simp [pfaAlloc, hhead, hne]

/-- Unlinking leaves the tail of the free list. -/
theorem Allocator.pop {m : Memory} {f : Nat} {fs : List Nat}
    (h : Allocator m (f :: fs)) : Allocator (popFree m) fs := by
  obtain ⟨hhead, hne, hrest⟩ := h.list
  have hnot : f ∉ fs := (List.nodup_cons.mp h.nodup).1
  refine ⟨?_, (List.nodup_cons.mp h.nodup).2⟩
  have hlist : FreeList m.mem (m.mem f 0) fs := hrest
  have hhead' : (popFree m).freeHead = m.mem f 0 := by
    simp [popFree, hhead]
  rw [hhead']
  refine hlist.congr (fun g hg => ?_)
  have hg' : g ≠ m.freeHead := by
    rw [hhead]
    exact fun heq => hnot (heq ▸ hg)
  simp [popFree, Memory.clear, hg']

/-- Allocation writes only the frame it hands out. -/
theorem popFree_mem_of_ne {m : Memory} {g : Nat} (hg : g ≠ m.freeHead) :
    (popFree m).mem g = m.mem g := by
  simp [popFree, Memory.clear, hg]

/-- A freshly allocated frame is zero. -/
theorem popFree_mem_head (m : Memory) (i : Nat) :
    (popFree m).mem m.freeHead i = 0 := by
  simp [popFree, Memory.clear]

@[simp]
theorem popFree_nxSupported (m : Memory) : (popFree m).nxSupported = m.nxSupported :=
  rfl

@[simp]
theorem popFree_kernelPml4 (m : Memory) : (popFree m).kernelPml4 = m.kernelPml4 :=
  rfl

/-- Releasing a page-aligned frame succeeds. -/
theorem pfaFree_push {m : Memory} {phys : Nat} (hne : phys ≠ 0)
    (halign : phys % pageSize = 0) : pfaFree phys m = (.ok (), pushFree m phys) := by
  simp [pfaFree, hne, halign]

/-- A released frame becomes the first free frame. -/
theorem Allocator.push {m : Memory} {fs : List Nat} {phys : Nat}
    (h : Allocator m fs) (hne : phys ≠ 0) (hnot : phys ∉ fs) :
    Allocator (pushFree m phys) (phys :: fs) := by
  refine ⟨⟨rfl, hne, ?_⟩, List.nodup_cons.mpr ⟨hnot, h.nodup⟩⟩
  have hlink : (pushFree m phys).mem phys 0 = m.freeHead := by
    simp [pushFree, Memory.store]
  rw [hlink]
  refine h.list.congr (fun g hg => ?_)
  have hg' : g ≠ phys := fun heq => hnot (heq ▸ hg)
  simp [pushFree, Memory.store, hg']

/-- Releasing a frame writes only that frame. -/
theorem pushFree_mem_of_ne {m : Memory} {phys g : Nat} (hg : g ≠ phys) :
    (pushFree m phys).mem g = m.mem g := by
  simp [pushFree, Memory.store, hg]

@[simp]
theorem pushFree_nxSupported (m : Memory) (phys : Nat) :
    (pushFree m phys).nxSupported = m.nxSupported :=
  rfl

@[simp]
theorem pushFree_kernelPml4 (m : Memory) (phys : Nat) :
    (pushFree m phys).kernelPml4 = m.kernelPml4 :=
  rfl

/-- A store outside the free frames leaves the allocator alone. -/
theorem Allocator.store {m : Memory} {fs : List Nat} {frame : Nat}
    (h : Allocator m fs) (hnot : frame ∉ fs) (idx word : Nat) :
    Allocator (m.store frame idx word) fs := by
  refine ⟨?_, h.nodup⟩
  refine h.list.congr (fun g hg => ?_)
  have hg' : g ≠ frame := fun heq => hnot (heq ▸ hg)
  simp [Memory.store, hg']

end Mm
end Nyxis
