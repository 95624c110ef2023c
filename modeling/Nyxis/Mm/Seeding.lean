import Nyxis.Boot.Multiboot2
import Nyxis.Mm.Pfa
import Mathlib.Data.List.Nodup

/-!
# Seeding and using the frame allocator

{lit}`pfa_init` walks the boot memory map and threads every usable frame of every conventional
descriptor in front of the free list.  It does not look whether a frame is in the list already, so a
frame that two descriptors have in common closes the list to a circle.

Main results:

- Theorem {lit}`mem_framesOf`: the frames that a descriptor gives.
- Theorem {lit}`freeList_pushAll`: what the links spell out after any frames have been pushed.
- Theorem {lit}`pfaInit_seeds_iff`: when the seeded list is a list.
- Theorem {lit}`frames_handed_out_once`: allocations and releases on a list without duplicates.
-/

namespace Nyxis
namespace Mm

open Boot (MemDesc ntbliMemConventional ntbliPageSize)

/-! ## The memory map -/

/-- {lit}`align_up` of {lit}`pfa.c`. -/
def pfaAlignUp (v a : Nat) : Nat :=
  (v + a - 1) % 2 ^ 64 / a * a

/-- {lit}`align_down` of {lit}`pfa.c`. -/
def pfaAlignDown (v a : Nat) : Nat :=
  v / a * a

/-- {lit}`PFA_LOW_RESERVED`. -/
def pfaLowReserved : Nat := 0x100000

/-- {lit}`ranges_overlap`. -/
def rangesOverlap (aStart aEnd bStart bEnd : Nat) : Bool :=
  if aStart ≥ aEnd ∨ bStart ≥ bEnd then false
  else decide (aStart < bEnd ∧ bStart < aEnd)

/-- The ranges that {lit}`pfa_init` is given beside the memory map. -/
structure BootRanges where
  kernelStart : Nat
  kernelEnd : Nat
  initrdStart : Nat
  initrdEnd : Nat
  hhdmLimit : Nat

/-- The frames that {lit}`pfa_init` passes over. -/
def BootRanges.excludes (b : BootRanges) (start : Nat) : Bool :=
  decide (start < pfaLowReserved) ||
    rangesOverlap start ((start + pageSize) % 2 ^ 64) b.kernelStart b.kernelEnd ||
    (decide (b.initrdStart < b.initrdEnd) &&
      rangesOverlap start ((start + pageSize) % 2 ^ 64) b.initrdStart b.initrdEnd)

/-- The inner loop of {lit}`pfa_init`. -/
def seedLoop (b : BootRanges) : (fuel : Nat) → (start stop : Nat) → Memory → Memory
  | 0, _, _, m => m
  | fuel + 1, start, stop, m =>
      if start < stop then
        seedLoop b fuel ((start + pageSize) % 2 ^ 64) stop
          (if b.excludes start then m else pushFree m start)
      else m

/-- One descriptor of the memory map. -/
def seedDesc (b : BootRanges) (m : Memory) (d : MemDesc) : Memory :=
  if d.type ≠ ntbliMemConventional then m
  else if d.numPages > 0x1000000000000 / ntbliPageSize then m
  else
    let start := d.physStart
    let stop := (start + d.numPages * ntbliPageSize) % 2 ^ 64
    if stop < start then m
    else
      let stop := if stop > b.hhdmLimit then b.hhdmLimit else stop
      if start ≥ stop then m
      else
        let start := pfaAlignUp start pageSize
        let stop := pfaAlignDown stop pageSize
        seedLoop b ((stop - start) / pageSize) start stop m

/-- Physical memory and {lit}`g_initialized`. -/
structure Pfa where
  memory : Memory
  initialized : Bool

/-- {lit}`pfa_init`. -/
def pfaInit (info : Option (List MemDesc)) (b : BootRanges) : Eff Nstatus Pfa Unit := do
  let s ← Eff.gets id
  if s.initialized then Eff.fail .NalreadyInitialized
  else
    match info with
    | none => Eff.fail .NinvalidArg
    | some descs =>
        Eff.modify (fun s => ⟨descs.foldl (seedDesc b) { s.memory with freeHead := 0, freeCount := 0 },
          true⟩)

/-! ## The frames of a descriptor -/

/-- A frame that {lit}`pfa_init` takes from a descriptor. -/
structure Usable (b : BootRanges) (d : MemDesc) (f : Nat) : Prop where
  conventional : d.type = ntbliMemConventional
  sane : d.numPages ≤ 2 ^ 36
  noWrap : d.physStart + d.numPages * pageSize < 2 ^ 64
  aligned : f % pageSize = 0
  lower : d.physStart ≤ f
  upper : f + pageSize ≤ d.physStart + d.numPages * pageSize
  mapped : f + pageSize ≤ b.hhdmLimit
  high : pfaLowReserved ≤ f
  kernel : rangesOverlap f (f + pageSize) b.kernelStart b.kernelEnd = false
  initrd : rangesOverlap f (f + pageSize) b.initrdStart b.initrdEnd = false

/-- The frames of a descriptor, in the order in which they are pushed. -/
def framesOf (b : BootRanges) (d : MemDesc) : List Nat :=
  let stop := min (d.physStart + d.numPages * pageSize) b.hhdmLimit
  let first := (d.physStart + pageSize - 1) / pageSize * pageSize
  if d.type = ntbliMemConventional ∧ d.numPages ≤ 2 ^ 36 ∧
      d.physStart + d.numPages * pageSize < 2 ^ 64 ∧ d.physStart < stop then
    (List.range' first ((stop / pageSize * pageSize - first) / pageSize) pageSize).filter
      (fun f => !b.excludes f)
  else []

/-- Push frames one after another. -/
def pushAll (m : Memory) (frames : List Nat) : Memory :=
  frames.foldl pushFree m

theorem pushAll_filter_cons (b : BootRanges) (m : Memory) (f : Nat) (frames : List Nat) :
    pushAll m ((f :: frames).filter (fun f => !b.excludes f)) =
      pushAll (if b.excludes f then m else pushFree m f) (frames.filter (fun f => !b.excludes f)) := by
  rw [List.filter_cons]
  cases b.excludes f with
  | true => rfl
  | false => rfl

/-- The loop pushes the frames from its start to its end. -/
theorem seedLoop_eq (b : BootRanges) (n : Nat) {start stop : Nat} (hstop : start + n * pageSize = stop)
    (hlt : stop < 2 ^ 64) (m : Memory) :
    seedLoop b n start stop m =
      pushAll m ((List.range' start n pageSize).filter (fun f => !b.excludes f)) := by
  induction n generalizing start m with
  | zero => rfl
  | succ n ih =>
      rw [Nat.add_mul, Nat.one_mul] at hstop
      have hpos : 0 < pageSize := by decide
      have hnext : (start + pageSize) % 2 ^ 64 = start + pageSize := Nat.mod_eq_of_lt (by omega)
      rw [seedLoop, if_pos (by omega), List.range'_succ, pushAll_filter_cons, hnext]
      exact ih (by omega) _

/-- One descriptor pushes its frames. -/
theorem seedDesc_eq (b : BootRanges) {d : MemDesc} (hstart : d.physStart < 2 ^ 64) (m : Memory) :
    seedDesc b m d = pushAll m (framesOf b d) := by
  have hpage : pageSize = 4096 := rfl
  have hpages : ntbliPageSize = 4096 := rfl
  simp only [seedDesc, framesOf, pfaAlignUp, pfaAlignDown, hpage, hpages]
  by_cases htype : d.type = ntbliMemConventional
  swap
  · rw [if_pos htype, if_neg (fun h => htype h.1)]
    rfl
  rw [if_neg (not_not.mpr htype)]
  by_cases hsane : d.numPages ≤ 2 ^ 36
  swap
  · rw [if_pos (by omega), if_neg (fun h => hsane h.2.1)]
    rfl
  rw [if_neg (by omega)]
  by_cases hwrap : d.physStart + d.numPages * 4096 < 2 ^ 64
  swap
  · rw [if_pos (by omega), if_neg (fun h => hwrap h.2.2.1)]
    rfl
  have hmin : (if d.physStart + d.numPages * 4096 > b.hhdmLimit then b.hhdmLimit
      else d.physStart + d.numPages * 4096) = min (d.physStart + d.numPages * 4096) b.hhdmLimit := by
    split
    next => omega
    next => omega
  rw [Nat.mod_eq_of_lt hwrap, hmin, if_neg (by omega)]
  by_cases hlt : d.physStart < min (d.physStart + d.numPages * 4096) b.hhdmLimit
  swap
  · rw [if_pos (by omega), if_neg (fun h => hlt h.2.2.2)]
    rfl
  -- a range that is not empty is too far from the end of memory to be rounded over it
  rw [if_neg (by omega), if_pos ⟨htype, hsane, hwrap, hlt⟩,
    Nat.mod_eq_of_lt (show d.physStart + 4096 - 1 < 2 ^ 64 by omega)]
  obtain ⟨first, hfirst⟩ : ∃ first, first = (d.physStart + 4096 - 1) / 4096 * 4096 := ⟨_, rfl⟩
  obtain ⟨last, hlast⟩ : ∃ last, last =
      min (d.physStart + d.numPages * 4096) b.hhdmLimit / 4096 * 4096 := ⟨_, rfl⟩
  rw [← hfirst, ← hlast]
  by_cases hle : first ≤ last
  · refine seedLoop_eq b _ ?_ (by omega) m
    rw [hpage]
    omega
  · have hzero : (last - first) / 4096 = 0 := by
      rw [Nat.sub_eq_zero_of_le (by omega), Nat.zero_div]
    rw [hzero]
    rfl

theorem rangesOverlap_eq_false {aStart aEnd bStart bEnd : Nat} :
    rangesOverlap aStart aEnd bStart bEnd = false ↔
      aEnd ≤ aStart ∨ bEnd ≤ bStart ∨ bEnd ≤ aStart ∨ aEnd ≤ bStart := by
  rw [rangesOverlap]
  split
  next h => exact iff_of_true rfl (by omega)
  next h =>
    rw [decide_eq_false_iff_not]
    omega

theorem excludes_eq_false {b : BootRanges} {f : Nat} (hf : f + pageSize < 2 ^ 64) :
    b.excludes f = false ↔ pfaLowReserved ≤ f ∧
      rangesOverlap f (f + pageSize) b.kernelStart b.kernelEnd = false ∧
      rangesOverlap f (f + pageSize) b.initrdStart b.initrdEnd = false := by
  have hinitrd : (decide (b.initrdStart < b.initrdEnd) &&
      rangesOverlap f (f + pageSize) b.initrdStart b.initrdEnd) =
        rangesOverlap f (f + pageSize) b.initrdStart b.initrdEnd := by
    by_cases h : b.initrdStart < b.initrdEnd
    · rw [decide_eq_true h, Bool.true_and]
    · have hno := rangesOverlap_eq_false.mpr (Or.inr (Or.inl (Nat.le_of_not_lt h)) :
        f + pageSize ≤ f ∨ _)
      rw [hno, Bool.and_false]
  rw [BootRanges.excludes, Nat.mod_eq_of_lt hf, hinitrd]
  simp [and_assoc]

/-- The frames of a descriptor are the usable ones. -/
theorem mem_framesOf {b : BootRanges} {d : MemDesc} {f : Nat} :
    f ∈ framesOf b d ↔ Usable b d f := by
  have hpage : pageSize = 4096 := rfl
  rw [framesOf]
  split
  next h =>
    obtain ⟨htype, hsane, hwrap, hlt⟩ := h
    rw [List.mem_filter, List.mem_range', Bool.not_eq_true']
    constructor
    · rintro ⟨⟨i, hi, rfl⟩, hno⟩
      rw [hpage] at hi hwrap hlt
      have hbelow : (d.physStart + 4096 - 1) / 4096 * 4096 + 4096 * i + 4096 ≤
          min (d.physStart + d.numPages * 4096) b.hhdmLimit := by omega
      rw [excludes_eq_false (by rw [hpage]; omega)] at hno
      obtain ⟨hhigh, hkernel, hinitrd⟩ := hno
      refine ⟨htype, hsane, hwrap, ?_, ?_, ?_, ?_, hhigh, hkernel, hinitrd⟩
      · rw [hpage]
        omega
      · rw [hpage]
        omega
      · rw [hpage]
        omega
      · rw [hpage]
        omega
    · intro hu
      have haligned := hu.aligned
      have hlower := hu.lower
      have hupper := hu.upper
      have hmapped := hu.mapped
      rw [hpage] at haligned hupper hmapped hwrap
      refine ⟨⟨(f - (d.physStart + 4096 - 1) / 4096 * 4096) / 4096, ?_, ?_⟩, ?_⟩
      · rw [hpage]
        omega
      · rw [hpage]
        omega
      · rw [excludes_eq_false (by rw [hpage]; omega)]
        exact ⟨hu.high, hu.kernel, hu.initrd⟩
  next h =>
    refine iff_of_false List.not_mem_nil (fun hu => h ⟨hu.conventional, hu.sane, hu.noWrap, ?_⟩)
    have hlower := hu.lower
    have hupper := hu.upper
    have hmapped := hu.mapped
    rw [hpage] at hupper hmapped ⊢
    omega

theorem nodup_framesOf (b : BootRanges) (d : MemDesc) : (framesOf b d).Nodup := by
  rw [framesOf]
  split
  next => exact (List.nodup_range' pageSize (by decide)).filter _
  next => exact List.nodup_nil

/-! ## Pushing frames -/

theorem FreeList.from_mem {mem : Nat → Nat → Nat} {head f : Nat} {before after : List Nat}
    (h : FreeList mem head (before ++ f :: after)) : FreeList mem f (f :: after) := by
  induction before generalizing head with
  | nil =>
      obtain ⟨rfl, hne, hrest⟩ := h
      exact ⟨rfl, hne, hrest⟩
  | cons g before ih => exact ih h.2.2

/-- Links that spell out a list visit no frame twice. -/
theorem FreeList.nodup {mem : Nat → Nat → Nat} {head : Nat} {fs : List Nat}
    (h : FreeList mem head fs) : fs.Nodup := by
  induction fs generalizing head with
  | nil => exact List.nodup_nil
  | cons f fs ih =>
      refine List.nodup_cons.mpr ⟨fun hmem => ?_, ih h.2.2⟩
      obtain ⟨before, after, rfl⟩ := List.append_of_mem hmem
      -- the walk from the frame is the same both times
      have hagain := h.2.2.from_mem
      have hfirst : FreeList mem f (f :: (before ++ f :: after)) := ⟨rfl, h.2.1, h.2.2⟩
      have hlen := congrArg List.length (hfirst.unique hagain)
      simp only [List.length_cons, List.length_append] at hlen
      omega

/-- What the links spell out behind a push. -/
theorem freeList_pushFree {m : Memory} {f : Nat} {fs : List Nat} (hf : f ≠ 0) :
    FreeList (pushFree m f).mem (pushFree m f).freeHead fs ↔
      ∃ gs, fs = f :: gs ∧ f ∉ gs ∧ FreeList m.mem m.freeHead gs := by
  have hlink : (pushFree m f).mem f 0 = m.freeHead := by
    simp [pushFree, Memory.store]
  constructor
  · intro h
    cases fs with
    | nil => exact absurd h hf
    | cons g gs =>
        obtain rfl : f = g := h.1
        have hnot := (List.nodup_cons.mp h.nodup).1
        refine ⟨gs, rfl, hnot, ?_⟩
        rw [← hlink]
        refine h.2.2.congr (fun g hg => ?_)
        have hgf : g ≠ f := fun heq => hnot (heq ▸ hg)
        rw [pushFree_mem_of_ne hgf]
  · rintro ⟨gs, rfl, hnot, h⟩
    refine ⟨rfl, hf, ?_⟩
    rw [hlink]
    refine h.congr (fun g hg => ?_)
    have hgf : g ≠ f := fun heq => hnot (heq ▸ hg)
    rw [pushFree_mem_of_ne hgf]

/-- The links spell out the frames that have been pushed, if no frame has been pushed twice, and
nothing otherwise. -/
theorem freeList_pushAll {m : Memory} (hhead : m.freeHead = 0) {frames : List Nat}
    (hne : ∀ f ∈ frames, f ≠ 0) {fs : List Nat} :
    FreeList (pushAll m frames).mem (pushAll m frames).freeHead fs ↔
      fs = frames.reverse ∧ frames.Nodup := by
  induction frames using List.reverseRecOn generalizing fs with
  | nil =>
      constructor
      · intro h
        change FreeList m.mem m.freeHead fs at h
        rw [hhead] at h
        exact ⟨h.eq_nil_of_zero, List.nodup_nil⟩
      · rintro ⟨rfl, -⟩
        exact hhead
  | append_singleton frames f ih =>
      have hpush : pushAll m (frames ++ [f]) = pushFree (pushAll m frames) f := by
        rw [pushAll, List.foldl_append]
        rfl
      have hne' : ∀ g ∈ frames, g ≠ 0 := fun g hg => hne g (List.mem_append_left _ hg)
      rw [hpush, freeList_pushFree (hne f (by simp)), List.reverse_append, List.nodup_append_comm,
        List.singleton_append, List.nodup_cons]
      constructor
      · rintro ⟨gs, rfl, hnot, h⟩
        obtain ⟨rfl, hnodup⟩ := (ih hne').mp h
        rw [List.mem_reverse] at hnot
        exact ⟨rfl, hnot, hnodup⟩
      · rintro ⟨rfl, hnot, hnodup⟩
        refine ⟨frames.reverse, rfl, ?_, (ih hne').mpr ⟨rfl, hnodup⟩⟩
        rw [List.mem_reverse]
        exact hnot

/-! ## Seeding -/

theorem seedDescs_eq (b : BootRanges) (m : Memory) {descs : List MemDesc}
    (hfits : ∀ d ∈ descs, d.physStart < 2 ^ 64) :
    descs.foldl (seedDesc b) m = pushAll m (descs.flatMap (framesOf b)) := by
  induction descs generalizing m with
  | nil => rfl
  | cons d descs ih =>
      rw [List.foldl_cons, seedDesc_eq b (hfits d List.mem_cons_self),
        ih _ (fun e he => hfits e (List.mem_cons_of_mem _ he)), List.flatMap_cons, pushAll, pushAll,
        pushAll, List.foldl_append]

/-- A frame that may be in the free list. -/
structure FreeFrame (b : BootRanges) (descs : List MemDesc) (f : Nat) : Prop where
  aligned : f % pageSize = 0
  high : 0x100000 ≤ f
  mapped : f + pageSize ≤ b.hhdmLimit
  conventional : ∃ d ∈ descs, d.type = ntbliMemConventional ∧ d.physStart ≤ f ∧
    f + pageSize ≤ d.physStart + d.numPages * pageSize
  kernel : ∀ a, f ≤ a → a < f + pageSize → ¬(b.kernelStart ≤ a ∧ a < b.kernelEnd)
  initrd : ∀ a, f ≤ a → a < f + pageSize → ¬(b.initrdStart ≤ a ∧ a < b.initrdEnd)

theorem apart_of_not_overlap {f start stop : Nat}
    (h : rangesOverlap f (f + pageSize) start stop = false) (a : Nat) (hle : f ≤ a)
    (hlt : a < f + pageSize) : ¬(start ≤ a ∧ a < stop) := by
  have hcases := rangesOverlap_eq_false.mp h
  omega

theorem Usable.freeFrame {b : BootRanges} {d : MemDesc} {descs : List MemDesc} {f : Nat}
    (h : Usable b d f) (hd : d ∈ descs) : FreeFrame b descs f where
  aligned := h.aligned
  high := h.high
  mapped := h.mapped
  conventional := ⟨d, hd, h.conventional, h.lower, h.upper⟩
  kernel := apart_of_not_overlap h.kernel
  initrd := apart_of_not_overlap h.initrd

/-- The descriptors have no usable frame in common. -/
def Apart (b : BootRanges) (descs : List MemDesc) : Prop :=
  descs.Pairwise (fun d e => ∀ f, Usable b d f → ¬Usable b e f)

theorem nodup_frames_iff (b : BootRanges) (descs : List MemDesc) :
    (descs.flatMap (framesOf b)).Nodup ↔ Apart b descs := by
  rw [List.nodup_flatMap, and_iff_right (fun d _ => nodup_framesOf b d), Apart]
  refine List.Pairwise.iff (fun d e => ?_)
  constructor
  · intro h f hd he
    exact h (mem_framesOf.mpr hd) (mem_framesOf.mpr he)
  · intro h f hd he
    exact h f (mem_framesOf.mp hd) (mem_framesOf.mp he)

theorem freeFrame_of_mem {b : BootRanges} {descs : List MemDesc} {f : Nat}
    (hf : f ∈ descs.flatMap (framesOf b)) : FreeFrame b descs f := by
  obtain ⟨d, hd, hmem⟩ := List.mem_flatMap.mp hf
  exact (mem_framesOf.mp hmem).freeFrame hd

/-- What the links spell out after {lit}`pfa_init`. -/
theorem pfaInit_freeList {b : BootRanges} {descs : List MemDesc} {s s' : Pfa}
    (hfits : ∀ d ∈ descs, d.physStart < 2 ^ 64) (hrun : pfaInit (some descs) b s = (.ok (), s'))
    {free : List Nat} : FreeList s'.memory.mem s'.memory.freeHead free ↔
      free = (descs.flatMap (framesOf b)).reverse ∧ Apart b descs := by
  have hne : ∀ f ∈ descs.flatMap (framesOf b), f ≠ 0 := by
    intro f hf
    have hhigh := (freeFrame_of_mem hf).high
    omega
  have hseeded : s'.memory = pushAll { s.memory with freeHead := 0, freeCount := 0 }
      (descs.flatMap (framesOf b)) := by
    rw [← seedDescs_eq b _ hfits]
    rw [pfaInit, Eff.gets_bind_run] at hrun
    dsimp only [id] at hrun
    split at hrun
    next => cases hrun
    next =>
      cases hrun
      rfl
  rw [hseeded, freeList_pushAll rfl hne, nodup_frames_iff]

/-- After {lit}`pfa_init` the links spell out a list of good frames without duplicates exactly when no
two descriptors have a usable frame in common. -/
theorem pfaInit_seeds_iff {b : BootRanges} {descs : List MemDesc} {s s' : Pfa}
    (hfits : ∀ d ∈ descs, d.physStart < 2 ^ 64) (hrun : pfaInit (some descs) b s = (.ok (), s')) :
    (∃ free, FreeList s'.memory.mem s'.memory.freeHead free ∧ free.Nodup ∧
      ∀ f ∈ free, FreeFrame b descs f) ↔ Apart b descs := by
  constructor
  · rintro ⟨free, hfree, -⟩
    exact ((pfaInit_freeList hfits hrun).mp hfree).2
  · intro hapart
    have hfree := (pfaInit_freeList hfits hrun).mpr ⟨rfl, hapart⟩
    refine ⟨_, hfree, hfree.nodup, fun f hf => ?_⟩
    exact freeFrame_of_mem (List.mem_reverse.mp hf)

/-- A machine before {lit}`pfa_init`. -/
def unseeded : Pfa :=
  ⟨⟨fun _ _ => 0, 0, 0, true, 0⟩, false⟩

/-- One page of conventional memory at 1 MiB. -/
def onePage : MemDesc :=
  ⟨7, 0, 0x100000, 0, 1, 0⟩

/-- A map of one page gives one frame. -/
theorem pfaInit_seeds_one_page : ∃ s' : Pfa,
    pfaInit (some [onePage]) ⟨0, 0, 0, 0, 2 ^ 32⟩ unseeded = (.ok (), s') ∧
      ∃ free, FreeList s'.memory.mem s'.memory.freeHead free ∧ free.Nodup ∧
        ∀ f ∈ free, FreeFrame ⟨0, 0, 0, 0, 2 ^ 32⟩ [onePage] f := by
  have hfits : ∀ d ∈ [onePage], d.physStart < 2 ^ 64 := by decide
  refine ⟨_, rfl, (pfaInit_seeds_iff (s := unseeded) hfits rfl).mpr ?_⟩
  exact List.pairwise_singleton _ _

/-- A map that lists a page twice: the frame is its own successor, and the links end nowhere. -/
theorem pfaInit_page_twice : ∃ s' : Pfa,
    pfaInit (some [onePage, onePage]) ⟨0, 0, 0, 0, 2 ^ 32⟩ unseeded = (.ok (), s') ∧
      s'.memory.freeHead = 0x100000 ∧ s'.memory.mem 0x100000 0 = 0x100000 ∧
      ¬∃ free, FreeList s'.memory.mem s'.memory.freeHead free := by
  refine ⟨_, rfl, by decide +kernel, by decide +kernel, ?_⟩
  rintro ⟨free, hfree⟩
  have hfits : ∀ d ∈ [onePage, onePage], d.physStart < 2 ^ 64 := by decide
  have hapart := ((pfaInit_freeList (s := unseeded) hfits rfl).mp hfree).2
  have husable : Usable ⟨0, 0, 0, 0, 2 ^ 32⟩ onePage 0x100000 := by
    rw [← mem_framesOf]
    decide +kernel
  exact (List.pairwise_cons.mp hapart).1 onePage List.mem_cons_self _ husable husable

/-! ## Allocations and releases -/

/-- Memory and the frames that callers hold. -/
structure Holding where
  memory : Memory
  held : List Nat

/-- What callers do: they allocate, they release, and they write to memory. -/
inductive FrameCall
  | alloc
  | free (phys : Nat)
  | write (phys idx word : Nat)

/-- Callers release and write the frames that they hold. -/
def FrameCall.Allowed (s : Holding) : FrameCall → Prop
  | alloc => True
  | free phys => phys ∈ s.held
  | write phys _ _ => phys ∈ s.held

/-- The state behind an allocation. -/
def Holding.behindAlloc (s : Holding) : Except Nstatus Nat × Memory → Holding
  | (.ok f, m) => ⟨m, f :: s.held⟩
  | (.error _, m) => ⟨m, s.held⟩

/-- The state behind a release. -/
def Holding.behindFree (s : Holding) (phys : Nat) : Except Nstatus Unit × Memory → Holding
  | (.ok _, m) => ⟨m, s.held.erase phys⟩
  | (.error _, m) => ⟨m, s.held⟩

/-- One call. -/
def Holding.step (s : Holding) : FrameCall → Holding
  | .alloc => s.behindAlloc (pfaAlloc s.memory)
  | .free phys => s.behindFree phys (pfaFree phys s.memory)
  | .write phys idx word => { s with memory := s.memory.store phys idx word }

/-- The states that calls lead to, from a state in which nothing is held. -/
inductive FrameRun (m : Memory) : Holding → Prop
  | start : FrameRun m ⟨m, []⟩
  | step {s : Holding} (c : FrameCall) (h : FrameRun m s) (hallowed : c.Allowed s) :
      FrameRun m (s.step c)

/-- Every frame is free or held, and no frame is both or twice.  The counter is the number of the free
ones. -/
structure Holding.Accounts (s : Holding) (all free : List Nat) : Prop where
  list : FreeList s.memory.mem s.memory.freeHead free
  count : s.memory.freeCount.toNat = free.length
  apart : (free ++ s.held).Nodup
  perm : (free ++ s.held).Perm all
  bound : all.length < 2 ^ 64

theorem Holding.Accounts.allocator {s : Holding} {all free : List Nat} (h : s.Accounts all free) :
    Allocator s.memory free :=
  ⟨h.list, (List.nodup_append.mp h.apart).1⟩

theorem Holding.Accounts.length_le {s : Holding} {all free : List Nat} (h : s.Accounts all free) :
    free.length + s.held.length < 2 ^ 64 := by
  have hlen := h.perm.length_eq
  rw [List.length_append] at hlen
  have hbound := h.bound
  omega

/-- An allocation. -/
theorem Holding.Accounts.alloc {s : Holding} {all : List Nat} {f : Nat} {fs : List Nat}
    (h : s.Accounts all (f :: fs)) : Holding.Accounts ⟨popFree s.memory, f :: s.held⟩ all fs where
  list := h.allocator.pop.list
  count := by
    have hcount := h.count
    have hbound := h.length_le
    change (s.memory.freeCount - 1).toNat = fs.length
    rw [List.length_cons] at hcount hbound
    rw [UInt64.toNat_sub_of_le _ _ (by rw [UInt64.le_iff_toNat_le, hcount]; simp), hcount]
    simp
  apart := h.apart.perm List.perm_middle.symm
  perm := List.perm_middle.trans h.perm
  bound := h.bound

/-- A release. -/
theorem Holding.Accounts.free {s : Holding} {all free : List Nat} {f : Nat} (h : s.Accounts all free)
    (hf : f ∈ s.held) (hne : f ≠ 0) :
    Holding.Accounts ⟨pushFree s.memory f, s.held.erase f⟩ all (f :: free) := by
  have hnot : f ∉ free := fun hmem => (List.nodup_append.mp h.apart).2.2 f hmem f hf rfl
  have hperm : (f :: free ++ s.held.erase f).Perm (free ++ s.held) :=
    List.perm_middle.symm.trans ((List.perm_cons_erase hf).symm.append_left free)
  refine ⟨(h.allocator.push hne hnot).list, ?_, h.apart.perm hperm.symm, hperm.trans h.perm, h.bound⟩
  have hcount := h.count
  have hbound := h.length_le
  have hpos := List.length_pos_of_mem hf
  change (s.memory.freeCount + 1).toNat = free.length + 1
  rw [UInt64.toNat_add, hcount]
  exact Nat.mod_eq_of_lt (by simp; omega)

theorem Holding.Accounts.write {s : Holding} {all free : List Nat} {f : Nat} (h : s.Accounts all free)
    (hf : f ∈ s.held) (idx word : Nat) :
    Holding.Accounts { s with memory := s.memory.store f idx word } all free := by
  have hnot : f ∉ free := fun hmem => (List.nodup_append.mp h.apart).2.2 f hmem f hf rfl
  exact ⟨(h.allocator.store hnot idx word).list, h.count, h.apart, h.perm, h.bound⟩

/-- One call keeps the account. -/
theorem Holding.Accounts.step {s : Holding} {all free : List Nat} (h : s.Accounts all free)
    (c : FrameCall) (hallowed : c.Allowed s) : ∃ free', (s.step c).Accounts all free' := by
  cases c with
  | alloc =>
      rw [Holding.step]
      cases free with
      | nil =>
          rw [pfaAlloc_nil h.allocator]
          exact ⟨[], h⟩
      | cons f fs =>
          rw [pfaAlloc_cons h.allocator]
          exact ⟨fs, h.alloc⟩
  | free phys =>
      rw [Holding.step, pfaFree]
      split
      next => exact ⟨free, h⟩
      next hok =>
        rw [not_or] at hok
        exact ⟨phys :: free, h.free hallowed hok.1⟩
  | write phys idx word => exact ⟨free, h.write hallowed idx word⟩

/-- Every run keeps the account. -/
theorem FrameRun.accounts {m : Memory} {all : List Nat} (hlist : FreeList m.mem m.freeHead all)
    (hcount : m.freeCount.toNat = all.length) {s : Holding} (h : FrameRun m s) :
    ∃ free, s.Accounts all free := by
  induction h with
  | start =>
      refine ⟨all, hlist, hcount, ?_, ?_, ?_⟩
      · rw [List.append_nil]
        exact hlist.nodup
      · rw [List.append_nil]
      · rw [← hcount]
        exact m.freeCount.toNat_lt
  | step c _ hallowed ih =>
      obtain ⟨free, hfree⟩ := ih
      exact hfree.step c hallowed

/-- From a list of free frames on, whatever callers allocate, release and write: no frame is handed out
that is held, an allocation fails only when all are, a frame is handed out cleared, and the counter is
the length of the list. -/
theorem frames_handed_out_once {m : Memory} {all : List Nat} (hlist : FreeList m.mem m.freeHead all)
    (hcount : m.freeCount.toNat = all.length) {s : Holding} (h : FrameRun m s) :
    (∀ f m', pfaAlloc s.memory = (.ok f, m') → f ∈ all ∧ f ∉ s.held ∧ ∀ i, m'.mem f i = 0) ∧
      (∀ e m', pfaAlloc s.memory = (.error e, m') → ∀ f ∈ all, f ∈ s.held) ∧
      ∃ free, FreeList s.memory.mem s.memory.freeHead free ∧
        s.memory.freeCount.toNat = free.length := by
  obtain ⟨free, hfree⟩ := h.accounts hlist hcount
  refine ⟨fun f m' halloc => ?_, fun e m' halloc f hf => ?_, free, hfree.list, hfree.count⟩
  · cases free with
    | nil =>
        rw [pfaAlloc_nil hfree.allocator] at halloc
        cases halloc
    | cons g gs =>
        rw [pfaAlloc_cons hfree.allocator] at halloc
        cases halloc
        refine ⟨hfree.perm.subset (by simp), fun hmem => ?_, fun i => ?_⟩
        · exact (List.nodup_append.mp hfree.apart).2.2 f List.mem_cons_self f hmem rfl
        · have hhead : s.memory.freeHead = f := hfree.list.1
          rw [← hhead]
          exact popFree_mem_head s.memory i
  · cases free with
    | nil => exact hfree.perm.symm.subset hf
    | cons g gs =>
        rw [pfaAlloc_cons hfree.allocator] at halloc
        cases halloc

/-- Two free frames. -/
def twoFrames : Memory :=
  pushFree (pushFree ⟨fun _ _ => 0, 0, 0, true, 0⟩ 0x100000) 0x101000

/-- The first of the two is allocated, written to and released. -/
def twoFramesUsed : Holding :=
  ((Holding.step ⟨twoFrames, []⟩ .alloc).step (.write 0x101000 0 7)).step (.free 0x101000)

theorem frames_handed_out_once_two : FrameRun twoFrames twoFramesUsed ∧
    ∀ f m', pfaAlloc twoFramesUsed.memory = (.ok f, m') →
      f ∈ [0x101000, 0x100000] ∧ f ∉ twoFramesUsed.held ∧ ∀ i, m'.mem f i = 0 := by
  have hlist : FreeList twoFrames.mem twoFrames.freeHead [0x101000, 0x100000] := by decide +kernel
  have hrun : FrameRun twoFrames twoFramesUsed := by
    refine FrameRun.step _ (FrameRun.step _ (FrameRun.step _ FrameRun.start trivial) ?_) ?_
    · exact List.mem_cons_self
    · exact List.mem_cons_self
  exact ⟨hrun, (frames_handed_out_once hlist rfl hrun).1⟩

end Mm
end Nyxis
