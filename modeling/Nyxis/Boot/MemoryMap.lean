import Nyxis.Boot.Tags

/-!
# The memory map of a Multiboot2 block

The descriptors that the conversion of a block leaves in the buffer are those of the entries
that the last memory-map tag keeps, in their order, as far as the buffer reaches.  A
descriptor of usable memory lies inside its entry unless rounding up the base of the entry
wraps.

Main results:

- Theorem {lit}`convertEntries_emits`: the descriptors that one memory map emits.
- Theorem {lit}`usable_memory_inside_iff`: when no usable memory is invented.
-/

namespace Nyxis
namespace Boot

open Bytes

/-! ## Entries -/

/-- An entry of a memory map. -/
structure MapEntry where
  base : Nat
  len : Nat
  type : Nat
deriving DecidableEq

/-- The range that an entry stands for, unless it is skipped. -/
def MapEntry.range (e : MapEntry) : Option (Nat × Nat) :=
  entryRange (mapMemoryType e.type) e.base e.len

/-- The descriptor of an entry that is not skipped. -/
def MapEntry.desc (e : MapEntry) : Option MemDesc :=
  e.range.map (fun r =>
    ⟨mapMemoryType e.type, 0, r.1, 0, (r.2 - r.1) / ntbliPageSize, 0⟩)

/-- The numbers of an entry are 64-bit numbers. -/
structure MapEntry.Wide (e : MapEntry) : Prop where
  base : e.base < 2 ^ 64
  len : e.len < 2 ^ 64

/-- An entry of available memory whose base cannot be rounded up in 64-bit arithmetic. -/
def MapEntry.WrapsUp (e : MapEntry) : Prop :=
  e.type = mb2MemAvailable ∧ 2 ^ 64 - ntbliPageSize < e.base

instance (e : MapEntry) : Decidable e.WrapsUp :=
  inferInstanceAs (Decidable (_ ∧ _))

/-- A descriptor covers whole pages inside the range of an entry of available memory. -/
structure MemDesc.Within (d : MemDesc) (e : MapEntry) : Prop where
  available : e.type = mb2MemAvailable
  nonempty : 0 < d.numPages
  aligned : d.physStart % ntbliPageSize = 0
  start : e.base ≤ d.physStart
  stop : d.physStart + d.numPages * ntbliPageSize ≤ e.base + e.len
  noWrap : e.base + e.len < 2 ^ 64

theorem mapMemoryType_conventional {type : Nat} :
    mapMemoryType type = ntbliMemConventional ↔ type = mb2MemAvailable := by
  unfold mapMemoryType
  constructor
  · intro h
    by_contra hne
    rw [if_neg hne] at h
    split at h
    · cases h
    · split at h
      · cases h
      · split at h
        · cases h
        · cases h
  · intro h
    rw [if_pos h]

/-- The range of an available entry that is kept. -/
theorem entryRange_conventional {base len start stop : Nat} (hbase : base < 2 ^ 64)
    (hlen : len < 2 ^ 64) (h : entryRange ntbliMemConventional base len = some (start, stop)) :
    base + len < 2 ^ 64 ∧ start = pageUp base ∧ stop = pageDown (base + len) ∧
      start < stop := by
  unfold entryRange at h
  split at h
  next => cases h
  next hkeep =>
    rw [not_or] at hkeep
    have hwrap : base + len < 2 ^ 64 := by omega
    rw [if_pos rfl, Nat.mod_eq_of_lt hwrap] at h
    split at h
    next => cases h
    next hpages =>
      cases h
      exact ⟨hwrap, rfl, rfl, by omega⟩

/-- Rounding up stays above the number exactly when it does not wrap. -/
theorem le_pageUp_iff {n : Nat} (hn : n < 2 ^ 64) :
    n ≤ pageUp n ↔ n ≤ 2 ^ 64 - ntbliPageSize := by
  have hsize : ntbliPageSize = 4096 := rfl
  unfold pageUp pageDown
  rw [hsize]
  omega

/-- The descriptor of a kept entry is of usable memory exactly when the entry is available,
and then it lies within the entry exactly when the base can be rounded up. -/
theorem MapEntry.Wide.desc_within_iff {e : MapEntry} (hwide : e.Wide) {d : MemDesc}
    (hdesc : e.desc = some d) :
    (d.type = ntbliMemConventional ↔ e.type = mb2MemAvailable) ∧
      (e.type = mb2MemAvailable → (d.Within e ↔ ¬ e.WrapsUp)) := by
  have hsize : ntbliPageSize = 4096 := rfl
  unfold MapEntry.desc at hdesc
  obtain ⟨⟨start, stop⟩, hrange, rfl⟩ := Option.map_eq_some_iff.mp hdesc
  refine ⟨mapMemoryType_conventional, fun htype => ?_⟩
  unfold MapEntry.range at hrange
  rw [mapMemoryType_conventional.mpr htype] at hrange
  obtain ⟨hwrap, rfl, rfl, hpages⟩ := entryRange_conventional hwide.base hwide.len hrange
  have hup := le_pageUp_iff hwide.base
  have hstart : pageUp e.base % ntbliPageSize = 0 := Nat.mul_mod_left _ _
  have hstop : pageDown (e.base + e.len) % ntbliPageSize = 0 := Nat.mul_mod_left _ _
  have hdown : pageDown (e.base + e.len) ≤ e.base + e.len := Nat.div_mul_le_self _ _
  constructor
  · rintro hwithin ⟨-, hbig⟩
    have hle := hup.mp hwithin.start
    omega
  · intro hnot
    have hle : e.base ≤ pageUp e.base := by
      refine hup.mpr (Nat.not_lt.mp fun hbig => hnot ⟨htype, hbig⟩)
    rw [hsize] at hstart hstop
    refine ⟨htype, ?_, ?_, hle, ?_, hwrap⟩
    · dsimp only
      rw [hsize]
      omega
    · exact hstart
    · dsimp only
      rw [hsize]
      omega

/-! ## The entries of a tag -/

/-- The entry at a place of a memory map. -/
def entryAt (mem : Nat → UInt8) (tag entrySize i : Nat) : MapEntry where
  base := leNat (bytesAt mem (tag + 16 + i * entrySize) 8)
  len := leNat (bytesAt mem (tag + 16 + i * entrySize + 8) 8)
  type := leNat (bytesAt mem (tag + 16 + i * entrySize + 16) 4)

/-- The entries of a row of places that are not skipped. -/
def keptFrom (mem : Nat → UInt8) (tag entrySize i n : Nat) : List MapEntry :=
  ((List.range' i n).map (entryAt mem tag entrySize)).filter (fun e => e.range.isSome)

/-- The size of an entry that a memory-map tag states. -/
def Tag.entrySize (mem : Nat → UInt8) (t : Tag) : Nat :=
  leNat (bytesAt mem (t.addr + 8) 4)

/-- The entries of a memory-map tag that are not skipped. -/
def Tag.kept (mem : Nat → UInt8) (t : Tag) : List MapEntry :=
  keptFrom mem t.addr (t.entrySize mem) 0 ((t.size - 16) / t.entrySize mem)

variable {mem : Nat → UInt8}

theorem entryAt_wide (tag entrySize i : Nat) : (entryAt mem tag entrySize i).Wide :=
  ⟨leNat_bytesAt_lt _ 8, leNat_bytesAt_lt _ 8⟩

theorem Tag.wide_of_mem_kept {t : Tag} {e : MapEntry} (he : e ∈ t.kept mem) : e.Wide := by
  obtain ⟨i, -, rfl⟩ := List.mem_map.mp (List.mem_filter.mp he).1
  exact entryAt_wide _ _ _

theorem keptFrom_succ (tag entrySize i n : Nat) :
    keptFrom mem tag entrySize i (n + 1) =
      if (entryAt mem tag entrySize i).range.isSome then
        entryAt mem tag entrySize i :: keptFrom mem tag entrySize (i + 1) n
      else
        keptFrom mem tag entrySize (i + 1) n := by
  unfold keptFrom
  rw [List.range'_succ, List.map_cons, List.filter_cons]

/-- The descriptors of a list of entries stand in the buffer from an index on, as far as the
buffer reaches. -/
def Emitted (cap used : Nat) (entries : List MapEntry) (memmap : Nat → MemDesc) : Prop :=
  ∀ j e, entries[j]? = some e → used + j < cap → e.desc = some (memmap (used + j))

theorem Emitted.cons {cap used : Nat} {e : MapEntry} {entries : List MapEntry}
    {memmap : Nat → MemDesc} (hhead : used < cap → e.desc = some (memmap used))
    (htail : Emitted cap (used + 1) entries memmap) : Emitted cap used (e :: entries) memmap := by
  intro j e' hj hroom
  cases j with
  | zero =>
      cases hj
      exact hhead hroom
  | succ j =>
      have hindex : used + (j + 1) = used + 1 + j := by omega
      rw [hindex] at hroom ⊢
      exact htail j e' hj hroom

/-- One run over entries emits the descriptors of those that are not skipped. -/
theorem convertEntries_emits {tag entrySize cap n i used : Nat} {s : Parse} (hused : used ≤ cap) :
    Eff.Post (convertEntries mem tag entrySize cap n i used) s (fun r s' =>
      r = .ok (min cap (used + (keptFrom mem tag entrySize i n).length)) ∧
        (∀ j < used, s'.memmap j = s.memmap j) ∧
        Emitted cap used (keptFrom mem tag entrySize i n) s'.memmap) := by
  induction n generalizing i used s with
  | zero =>
      refine Eff.post_of_eq rfl ⟨?_, fun j _ => rfl, fun j e hj => ?_⟩
      · change Except.ok used = Except.ok (min cap used)
        rw [Nat.min_eq_right hused]
      · cases hj
  | succ n ih =>
      rw [keptFrom_succ]
      refine Eff.post_bind_ok rfl (Eff.post_bind_ok rfl (Eff.post_bind_ok rfl ?_))
      dsimp only
      split
      next hskip =>
        have hrange : (entryAt mem tag entrySize i).range = none := hskip
        rw [hrange, if_neg (by simp)]
        exact ih hused
      next start stop hkeep =>
        have hrange : (entryAt mem tag entrySize i).range = some (start, stop) := hkeep
        rw [hrange, if_pos Option.isSome_some, List.length_cons]
        split
        next hfull =>
          refine Eff.post_of_eq rfl ⟨?_, fun j _ => rfl, ?_⟩
          · rw [Nat.min_eq_left (by omega), Nat.le_antisymm hused hfull]
          · intro j e _ hroom
            omega
        next hroom =>
          rw [Nat.not_le] at hroom
          have hput : ∀ d, Function.update s.memmap used d used = d :=
            fun d => Function.update_self used d s.memmap
          refine Eff.post_bind_ok rfl (Eff.post_bind_ok rfl ?_)
          have hnext : used + 1 ≤ cap := hroom
          refine Eff.post_mono (ih hnext) ?_
          rintro r s' ⟨rfl, hbefore, hemit⟩
          refine ⟨?_, fun j hj => ?_, Emitted.cons (fun _ => ?_) hemit⟩
          · rw [Nat.add_right_comm, Nat.add_assoc]
          · rw [hbefore j (by omega)]
            exact Function.update_of_ne (by omega) _ _
          · rw [hbefore used (by omega)]
            unfold MapEntry.desc
            rw [hrange]
            exact congrArg some (hput _).symm

/-! ## The last memory map -/

/-- The last memory-map tag of a list. -/
def lastMap (tags : List Tag) : Option Tag :=
  (tags.filter (fun t => t.type = mb2TagMmap)).getLast?

theorem lastMap_append (ts : List Tag) (t : Tag) :
    lastMap (ts ++ [t]) = if t.type = mb2TagMmap then some t else lastMap ts := by
  unfold lastMap
  rw [List.filter_append]
  split
  next hmap => rw [List.filter_cons_of_pos (by simpa using hmap), List.filter_nil,
    List.getLast?_append, List.getLast?_singleton, Option.some_or]
  next hmap => rw [List.filter_cons_of_neg (by simpa using hmap), List.filter_nil,
    List.append_nil]

/-- The buffer holds the descriptors of a memory-map tag, and the reported size is theirs. -/
structure Tag.Reported (mem : Nat → UInt8) (cap : Nat) (t : Tag) (s : Parse) : Prop where
  size : s.out.memmapSize = min cap (t.kept mem).length * memDescSize
  emitted : Emitted cap 0 (t.kept mem) s.memmap

/-- What a list of tags leaves of its memory maps. -/
def MapReported (mem : Nat → UInt8) (cap : Nat) (ts : List Tag) (s : Parse) : Prop :=
  match lastMap ts with
  | none => s.out.memmapBase = 0
  | some t => t.Reported mem cap s

theorem MapReported.congr {cap : Nat} {ts ts' : List Tag} {s s' : Parse}
    (h : MapReported mem cap ts s) (hlast : lastMap ts' = lastMap ts)
    (hmap : s'.memmap = s.memmap) (hsize : s'.out.memmapSize = s.out.memmapSize)
    (hbase : s'.out.memmapBase = s.out.memmapBase) : MapReported mem cap ts' s' := by
  unfold MapReported at h ⊢
  rw [hlast]
  cases hcase : lastMap ts with
  | none =>
      rw [hcase] at h
      exact hbase.trans h
  | some t =>
      rw [hcase] at h
      exact ⟨hsize.trans h.size, hmap ▸ h.emitted⟩

/-- One memory-map tag. -/
theorem convertMmap_emits {t : Tag} {cap : Nat} {s : Parse} :
    Eff.Post (convertMmap mem t.addr t.size cap) s (fun r s' =>
      ∀ count, r = .ok count → count = min cap (t.kept mem).length ∧
        Emitted cap 0 (t.kept mem) s'.memmap) := by
  refine Eff.post_bind_ok rfl ?_
  split
  next => exact Eff.post_of_eq rfl (fun _ => nofun)
  next =>
    refine Eff.post_bind_ok rfl ?_
    split
    next => exact Eff.post_of_eq rfl (fun _ => nofun)
    next =>
      refine Eff.post_mono (convertEntries_emits (Nat.zero_le cap)) ?_
      rintro r s' ⟨rfl, -, hemit⟩ count hcount
      cases hcount
      rw [Nat.zero_add]
      exact ⟨rfl, hemit⟩

/-- The reported memory map is that of the last memory-map tag. -/
theorem mapReported_rule (memmapBuf memmapCap : Nat) :
    TagRule mem memmapBuf memmapCap (MapReported mem (memmapCap / memDescSize)) where
  start _ := rfl
  read _ _ _ _ h := h.congr rfl rfl rfl rfl
  step ts s t haveRsdpNew h := by
    by_cases hmap : t.type = mb2TagMmap
    · unfold convertTag
      rw [hmap, if_neg (by decide), if_pos rfl]
      refine post_attemptStatus_bind convertMmap_emits ?_ ?_ (fun s' _ => nofun)
        (fun s' _ => nofun)
      · intro count s' hcount
        obtain ⟨rfl, hemit⟩ := hcount count rfl
        refine Eff.post_bind_ok rfl (Eff.post_of_eq rfl (fun _ => ?_))
        unfold MapReported
        rw [lastMap_append, if_pos hmap]
        exact ⟨rfl, hemit⟩
      · intro e s' _
        exact Eff.post_of_eq rfl nofun
    · have hlast : lastMap (ts ++ [t]) = lastMap ts := by
        rw [lastMap_append, if_neg hmap]
      by_cases hfb : t.type = mb2TagFramebuf
      · unfold convertTag
        rw [hfb, if_neg (by decide), if_neg (by decide), if_pos rfl]
        refine Eff.post_bind (convertFramebuffer_screen hfb) (fun e s' _ => nofun) ?_
        rintro x s' ⟨hdescs, hsize, hbase, -⟩
        exact Eff.post_of_eq rfl (fun _ => h.congr hlast hdescs hsize hbase)
      · refine Eff.post_mono (convertTag_other hmap hfb) ?_
        rintro r s' ⟨hdescs, base, size, rsdp, hout⟩ -
        exact h.congr hlast hdescs (by rw [hout]) (by rw [hout])

/-- Every reported descriptor of usable memory lies within the entry of the tag that it came
from: the entry at the same place among those that are not skipped. -/
def UsableInside (mem : Nat → UInt8) (t : Tag) (s : Parse) : Prop :=
  ∀ j < s.out.memmapSize / memDescSize, (s.memmap j).type = ntbliMemConventional →
    ∃ e, (t.kept mem)[j]? = some e ∧ (s.memmap j).Within e

/-- The usable memory that an accepted block reports lies inside the available entries of its
last memory map, each descriptor in the entry it came from, exactly when none of the entries
that get a descriptor is an available one whose base cannot be rounded up to a page in 64-bit
arithmetic. -/
theorem usable_memory_inside_iff (mem : Nat → UInt8) (mbi memmapBuf memmapCap : Nat)
    (s : Parse) (haccept : Accepted mem mbi memmapBuf memmapCap s) :
    ∃ t, lastMap (tagsOf mem mbi) = some t ∧
      (UsableInside mem t s ↔
        ∀ e ∈ (t.kept mem).take (memmapCap / memDescSize), ¬ e.WrapsUp) := by
  obtain ⟨hreported, hbase⟩ := multiboot2_tags (mapReported_rule memmapBuf memmapCap) haccept
  unfold MapReported at hreported
  cases hlast : lastMap (tagsOf mem mbi) with
  | none =>
      rw [hlast] at hreported
      exact absurd hreported hbase
  | some t =>
      rw [hlast] at hreported
      obtain ⟨hsize, hemit⟩ := hreported
      have hcount : s.out.memmapSize / memDescSize =
          min (memmapCap / memDescSize) (t.kept mem).length := by
        rw [hsize]
        exact Nat.mul_div_cancel _ (by decide)
      -- the descriptor of a kept entry that the buffer has room for
      have hdesc : ∀ j e, (t.kept mem)[j]? = some e → j < memmapCap / memDescSize →
          e.Wide ∧ e.desc = some (s.memmap j) := by
        intro j e hj hroom
        have hat := hemit j e hj (by omega)
        rw [Nat.zero_add] at hat
        exact ⟨Tag.wide_of_mem_kept (List.mem_of_getElem? hj), hat⟩
      refine ⟨t, rfl, fun h e he hwraps => ?_, fun h j hj htype => ?_⟩
      · obtain ⟨j, hj⟩ := List.mem_iff_getElem?.mp he
        rw [List.getElem?_take] at hj
        split at hj
        next hroom =>
          obtain ⟨hwide, hat⟩ := hdesc j e hj hroom
          obtain ⟨htype, hwithin⟩ := hwide.desc_within_iff hat
          have hlen : j < (t.kept mem).length := (List.getElem?_eq_some_iff.mp hj).1
          obtain ⟨e', he', hin⟩ := h j (by omega) (htype.mpr hwraps.1)
          rw [hj] at he'
          cases he'
          exact (hwithin hwraps.1).mp hin hwraps
        next => cases hj
      · rw [hcount] at hj
        have hlen : j < (t.kept mem).length := by omega
        have hget : (t.kept mem)[j]? = some (t.kept mem)[j] := List.getElem?_eq_getElem hlen
        obtain ⟨hwide, hat⟩ := hdesc j _ hget (by omega)
        obtain ⟨htype', hwithin⟩ := hwide.desc_within_iff hat
        refine ⟨_, hget, (hwithin (htype'.mp htype)).mpr (h _ ?_)⟩
        refine List.mem_iff_getElem?.mpr ⟨j, ?_⟩
        rw [List.getElem?_take, if_pos (by omega), hget]

/-! ## A block with one entry -/

/-- A block with a memory map of one available entry and an end tag. -/
def mapBlock (base len : Nat) : List UInt8 :=
  leBytes 4 56 ++ leBytes 4 0 ++
    (leBytes 4 6 ++ leBytes 4 40 ++ leBytes 4 24 ++ leBytes 4 0 ++
      (leBytes 8 base ++ leBytes 8 len ++ leBytes 4 1 ++ leBytes 4 0)) ++
    (leBytes 4 0 ++ leBytes 4 8)

/-- Memory that holds the block. -/
def mapMem (base len a : Nat) : UInt8 :=
  (mapBlock base len).getD (a - 0x1000) 0

/-- The conversion of the block, with a buffer for two descriptors. -/
def mapParse (base len : Nat) : Except Stop Unit × Parse :=
  multiboot2ToNtbli (mapMem base len) 0x1000 0x8000 80
    ⟨Ntbli.start, fun _ => ⟨0, 0, 0, 0, 0, 0⟩, []⟩

theorem mapParse_accepted {base len : Nat} (h : (mapParse base len).1 = .ok ()) :
    Accepted (mapMem base len) 0x1000 0x8000 80 (mapParse base len).2 := by
  cases hrun : mapParse base len with
  | mk r s =>
      rw [hrun] at h
      cases h
      exact ⟨Ntbli.start, fun _ => ⟨0, 0, 0, 0, 0, 0⟩, hrun⟩

/-- An entry of unaligned bounds is rounded inwards. -/
theorem usable_memory_inside_small :
    UsableInside (mapMem 0x100001 0x200000) ⟨0x1008, 6, 40⟩ (mapParse 0x100001 0x200000).2 := by
  obtain ⟨t, hlast, hiff⟩ := usable_memory_inside_iff (mapMem 0x100001 0x200000) 0x1000 0x8000 80
    _ (mapParse_accepted (by decide +kernel))
  have htag : lastMap (tagsOf (mapMem 0x100001 0x200000) 0x1000) = some ⟨0x1008, 6, 40⟩ := by
    decide +kernel
  rw [htag] at hlast
  cases hlast
  exact hiff.mpr (by decide +kernel)

/-- One byte of available memory in the last page of the address space: its base is rounded up
to zero, and the conversion reports all memory below that page as usable. -/
theorem usable_memory_invented :
    ∃ s, Accepted (mapMem (2 ^ 64 - 4095) 1) 0x1000 0x8000 80 s ∧
      s.memmap 0 = ⟨ntbliMemConventional, 0, 0, 0, 2 ^ 52 - 1, 0⟩ ∧
      ∃ t, lastMap (tagsOf (mapMem (2 ^ 64 - 4095) 1) 0x1000) = some t ∧
        t.kept (mapMem (2 ^ 64 - 4095) 1) = [⟨2 ^ 64 - 4095, 1, mb2MemAvailable⟩] ∧
        ¬ UsableInside (mapMem (2 ^ 64 - 4095) 1) t s := by
  have hdesc : (mapParse (2 ^ 64 - 4095) 1).2.memmap 0 =
      ⟨ntbliMemConventional, 0, 0, 0, 2 ^ 52 - 1, 0⟩ := by decide +kernel
  have hsize : (mapParse (2 ^ 64 - 4095) 1).2.out.memmapSize / memDescSize = 1 := by
    decide +kernel
  have hkept : Tag.kept (mapMem (2 ^ 64 - 4095) 1) ⟨0x1008, 6, 40⟩ =
      [⟨2 ^ 64 - 4095, 1, mb2MemAvailable⟩] := by decide +kernel
  refine ⟨_, mapParse_accepted (by decide +kernel), hdesc, ⟨0x1008, 6, 40⟩, by decide +kernel,
    hkept, fun h => ?_⟩
  obtain ⟨e, he, hwithin⟩ := h 0 (by rw [hsize]; decide) (by rw [hdesc])
  rw [hkept] at he
  cases he
  have hstart := hwithin.start
  rw [hdesc] at hstart
  revert hstart
  decide

end Boot
end Nyxis
