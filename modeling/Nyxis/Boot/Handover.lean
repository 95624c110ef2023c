import Nyxis.Boot.Multiboot2

/-!
# The boot information in memory

The boot information {lit}`NTBLI` and the descriptors of its memory map are structures without
padding, which the loader writes and the kernel reads.  This module has their layout, the functions
of {lit}`boot_info.h` that find a descriptor, and the copies that {lit}`_start` of {lit}`boot.s`
makes before the page tables of the firmware are given up, and {lit}`boot_info_from_uefi` of
{lit}`kernel/kernel.c`.

Main results:

- Theorem {lit}`decodeNtbli_bytes`: boot information that has been written is read back.
- Theorem {lit}`decodeDesc_bytes`: the same for a descriptor.
- Theorem {lit}`memmapOf_eq`: the descriptors of a memory map.
- Theorem {lit}`startCopy_spec`: what the kernel finds behind {lit}`_start`.
- Theorem {lit}`uefi_info_arrives`: the kernel works with the boot information and the memory map that
  the loader has written.
-/

namespace Nyxis
namespace Boot

open Bytes

/-! ## Layout -/

/-- The widths of the fields of {lit}`NTBLI`, the two reserved ones included. -/
def ntbliWidths : List Nat :=
  [4, 4, 4, 4, 8, 8, 8, 8, 8, 4, 4, 4, 4, 8, 8, 8, 4, 4, 8]

/-- The fields of {lit}`NTBLI` in their order. -/
def Ntbli.values (info : Ntbli) : List Nat :=
  [info.magic, info.version, info.size, 0, info.memorySize, info.initrdBase, info.initrdSize,
    info.framebufferBase, info.framebufferSize, info.width, info.height, info.pixelsPerScanLine,
    info.pixelFormat, info.memmapBase, info.memmapSize, info.memmapDescSize,
    info.memmapDescVersion, 0, info.rsdp]

/-- Boot information as it lies in memory. -/
def Ntbli.bytes (info : Ntbli) : List UInt8 :=
  pack (ntbliWidths.zip info.values)

/-- Read boot information. -/
def decodeNtbli (bytes : List UInt8) : Ntbli :=
  let values := unpack ntbliWidths bytes
  { magic := values.getD 0 0
    version := values.getD 1 0
    size := values.getD 2 0
    memorySize := values.getD 4 0
    initrdBase := values.getD 5 0
    initrdSize := values.getD 6 0
    framebufferBase := values.getD 7 0
    framebufferSize := values.getD 8 0
    width := values.getD 9 0
    height := values.getD 10 0
    pixelsPerScanLine := values.getD 11 0
    pixelFormat := values.getD 12 0
    memmapBase := values.getD 13 0
    memmapSize := values.getD 14 0
    memmapDescSize := values.getD 15 0
    memmapDescVersion := values.getD 16 0
    rsdp := values.getD 18 0 }

/-- Every field fits its width. -/
def Ntbli.Fits (info : Ntbli) : Prop :=
  ∀ f ∈ ntbliWidths.zip info.values, f.2 < 256 ^ f.1

instance (info : Ntbli) : Decidable info.Fits :=
  inferInstanceAs (Decidable (∀ f ∈ _, _))

/-- The widths of the fields of {lit}`ntbli_memdesc_t`. -/
def descWidths : List Nat :=
  [4, 4, 8, 8, 8, 8]

def MemDesc.values (d : MemDesc) : List Nat :=
  [d.type, d.pad, d.physStart, d.virtStart, d.numPages, d.attributes]

/-- A descriptor as it lies in memory. -/
def MemDesc.bytes (d : MemDesc) : List UInt8 :=
  pack (descWidths.zip d.values)

/-- Read a descriptor. -/
def decodeDesc (bytes : List UInt8) : MemDesc :=
  let values := unpack descWidths bytes
  ⟨values.getD 0 0, values.getD 1 0, values.getD 2 0, values.getD 3 0, values.getD 4 0,
    values.getD 5 0⟩

/-- Every field fits its width. -/
def MemDesc.Fits (d : MemDesc) : Prop :=
  ∀ f ∈ descWidths.zip d.values, f.2 < 256 ^ f.1

instance (d : MemDesc) : Decidable d.Fits :=
  inferInstanceAs (Decidable (∀ f ∈ _, _))

@[simp]
theorem length_ntbliBytes (info : Ntbli) : info.bytes.length = ntbliSize := by
  have hwidths : (ntbliWidths.zip info.values).map Prod.fst = ntbliWidths := rfl
  rw [Ntbli.bytes, length_pack, hwidths]
  decide

@[simp]
theorem length_descBytes (d : MemDesc) : d.bytes.length = memDescSize := by
  have hwidths : (descWidths.zip d.values).map Prod.fst = descWidths := rfl
  rw [MemDesc.bytes, length_pack, hwidths]
  decide

/-- Boot information that has been written is read back. -/
theorem decodeNtbli_bytes {info : Ntbli} (h : info.Fits) : decodeNtbli info.bytes = info := by
  have hvalues : unpack ntbliWidths info.bytes = info.values := unpack_pack h
  unfold decodeNtbli
  rw [hvalues]
  rfl

theorem decodeDesc_bytes {d : MemDesc} (h : d.Fits) : decodeDesc d.bytes = d := by
  have hvalues : unpack descWidths d.bytes = d.values := unpack_pack h
  unfold decodeDesc
  rw [hvalues]
  rfl

/-- A value that has been read fits the width of its field. -/
theorem unpack_getD_lt (widths : List Nat) (bytes : List UInt8) (i : Nat) :
    (unpack widths bytes).getD i 0 < 256 ^ widths.getD i 0 := by
  induction widths generalizing bytes i with
  | nil => simp [unpack]
  | cons width widths ih =>
      cases i with
      | zero =>
          refine lt_of_lt_of_le (leNat_lt _) (Nat.pow_le_pow_right (by decide) ?_)
          exact List.length_take_le width bytes
      | succ i => exact ih (bytes.drop width) i

/-- A descriptor that has been read starts at a 64-bit address. -/
theorem decodeDesc_physStart_lt (bytes : List UInt8) : (decodeDesc bytes).physStart < 2 ^ 64 :=
  unpack_getD_lt descWidths bytes 2

/-! ## The memory map -/

/-- {lit}`ntbli_memmap_count`. -/
def ntbliMemmapCount (info : Ntbli) : Nat :=
  if info.memmapBase = 0 ∨ info.memmapDescSize < memDescSize then 0
  else info.memmapSize / info.memmapDescSize

/-- {lit}`ntbli_memmap_at`, for a memory map that lies in a buffer of its own. -/
def ntbliMemmapAt (info : Ntbli) (map : Nat → UInt8) (idx : Nat) : Option MemDesc :=
  if info.memmapBase = 0 ∨ info.memmapDescSize < memDescSize then none
  else if info.memmapSize / info.memmapDescSize ≤ idx then none
  else some (decodeDesc (bytesAt map (idx * info.memmapDescSize) memDescSize))

/-- The descriptors that a loop finds that starts at an index and has {lit}`n` turns left. -/
def memmapFrom (info : Ntbli) (map : Nat → UInt8) : (n idx : Nat) → List MemDesc
  | 0, _ => []
  | n + 1, idx =>
      match ntbliMemmapAt info map idx with
      | none => []
      | some d => d :: memmapFrom info map n (idx + 1)

/-- The descriptors that the loops of the kernel find. -/
def memmapOf (info : Ntbli) (map : Nat → UInt8) : List MemDesc :=
  memmapFrom info map (ntbliMemmapCount info) 0

/-- The descriptor at an index. -/
def descAt (info : Ntbli) (map : Nat → UInt8) (idx : Nat) : MemDesc :=
  decodeDesc (bytesAt map (idx * info.memmapDescSize) memDescSize)

variable {info info' : Ntbli} {map map' : Nat → UInt8}

theorem ntbliMemmapAt_eq {idx : Nat} (h : idx < ntbliMemmapCount info) :
    ntbliMemmapAt info map idx = some (descAt info map idx) := by
  unfold ntbliMemmapCount at h
  unfold ntbliMemmapAt
  split at h
  next => exact absurd h (Nat.not_lt_zero idx)
  next hmap => rw [if_neg hmap, if_neg (Nat.not_le.mpr h), descAt]

theorem memmapFrom_eq {n idx : Nat} (h : idx + n ≤ ntbliMemmapCount info) :
    memmapFrom info map n idx = (List.range' idx n).map (descAt info map) := by
  induction n generalizing idx with
  | zero => rfl
  | succ n ih =>
      rw [memmapFrom, ntbliMemmapAt_eq (by omega), List.range'_succ, List.map_cons]
      exact congrArg _ (ih (by omega))

/-- No descriptor is missing below the count. -/
theorem memmapOf_eq (info : Ntbli) (map : Nat → UInt8) :
    memmapOf info map = (List.range (ntbliMemmapCount info)).map (descAt info map) := by
  rw [memmapOf, memmapFrom_eq (by omega), List.range_eq_range']

theorem memmapOf_physStart_lt {d : MemDesc} (hd : d ∈ memmapOf info map) :
    d.physStart < 2 ^ 64 := by
  rw [memmapOf_eq, List.mem_map] at hd
  obtain ⟨idx, -, rfl⟩ := hd
  exact decodeDesc_physStart_lt _

/-- A memory map depends on its own bytes only. -/
theorem memmapOf_congr (hbase : info'.memmapBase = 0 ↔ info.memmapBase = 0)
    (hsize : info'.memmapSize = info.memmapSize)
    (hdesc : info'.memmapDescSize = info.memmapDescSize)
    (hmap : ∀ i < info.memmapSize, map' i = map i) : memmapOf info' map' = memmapOf info map := by
  have hcount : ntbliMemmapCount info' = ntbliMemmapCount info := by
    simp only [ntbliMemmapCount, hsize, hdesc, hbase]
  rw [memmapOf_eq, memmapOf_eq, hcount]
  refine List.map_congr_left (fun idx hidx => ?_)
  rw [List.mem_range] at hidx
  unfold ntbliMemmapCount at hidx
  split at hidx
  next => exact absurd hidx (Nat.not_lt_zero idx)
  next hok =>
    -- the descriptor ends before the map does
    have hfit : (idx + 1) * info.memmapDescSize ≤ info.memmapSize :=
      (Nat.mul_le_mul_right _ hidx).trans (Nat.div_mul_le_self _ _)
    rw [Nat.add_mul, Nat.one_mul] at hfit
    unfold descAt
    rw [hdesc]
    refine congrArg decodeDesc (bytesAt_congr (fun i hlo hhi => hmap i ?_))
    omega

/-! ## The copies of {lit}`_start` -/

/-- {lit}`MEMMAP_MAX` of {lit}`boot.s`, and the offsets of the two fields that it changes. -/
def memmapMax : Nat := 65536
def ntbliMemmapBaseOffset : Nat := 72
def ntbliMemmapSizeOffset : Nat := 80

/-- {lit}`rep movsb` with the direction flag clear. -/
def repMovsb : (rcx rsi rdi : Nat) → (Nat → UInt8) → Nat → UInt8
  | 0, _, _, mem => mem
  | rcx + 1, rsi, rdi, mem => repMovsb rcx (rsi + 1) (rdi + 1) (Function.update mem rdi (mem rsi))

/-- Store a 64-bit number. -/
def store64 (mem : Nat → UInt8) (addr value : Nat) : Nat → UInt8 :=
  splice mem addr (leBytes 8 value)

/-- Load a 64-bit number. -/
def load64 (mem : Nat → UInt8) (addr : Nat) : Nat :=
  leNat (bytesAt mem addr 8)

/-- The first part of {lit}`_start`: the boot information and its memory map are copied to
{lit}`early_ntbli` and {lit}`early_memmap`.  The register {lit}`rdi` has the address of the boot
information. -/
def startCopy (earlyNtbli earlyMemmap rdi : Nat) (mem : Nat → UInt8) : Nat → UInt8 :=
  let mem := repMovsb ntbliSize rdi earlyNtbli mem
  let rsi := load64 mem (earlyNtbli + ntbliMemmapBaseOffset)
  let rcx := load64 mem (earlyNtbli + ntbliMemmapSizeOffset)
  let rcx := if rsi = 0 then 0 else rcx
  let rcx := if rcx ≤ memmapMax then rcx else memmapMax
  let mem := store64 mem (earlyNtbli + ntbliMemmapSizeOffset) rcx
  let mem := repMovsb rcx rsi earlyMemmap mem
  store64 mem (earlyNtbli + ntbliMemmapBaseOffset) earlyMemmap

/-- Where two ranges of addresses have nothing in common. -/
def RangesApart (a m b n : Nat) : Prop :=
  a + m ≤ b ∨ b + n ≤ a

/-- A copy to a range that does not meet its source. -/
theorem repMovsb_eq {n src dst : Nat} {mem : Nat → UInt8} (h : RangesApart src n dst n) :
    repMovsb n src dst mem = splice mem dst (bytesAt mem src n) := by
  unfold RangesApart at h
  induction n generalizing src dst mem with
  | zero => rw [bytesAt_zero, splice_nil, repMovsb]
  | succ n ih =>
      rw [repMovsb, ih (by omega)]
      have hsource : bytesAt (Function.update mem dst (mem src)) (src + 1) n =
          bytesAt mem (src + 1) n := by
        refine bytesAt_congr (fun i hlo hhi => ?_)
        exact Function.update_of_ne (by omega) _ _
      have hfirst : bytesAt mem src (n + 1) = mem src :: bytesAt mem (src + 1) n := by
        rw [Nat.add_comm, bytesAt_add]
        rfl
      rw [hsource, hfirst]
      funext a
      rcases Nat.lt_trichotomy a dst with hlt | rfl | hgt
      · rw [splice_of_lt _ _ (by omega), splice_of_lt _ _ hlt]
        exact Function.update_of_ne (by omega) _ _
      · rw [splice_of_lt _ _ (by omega), Function.update_self]
        unfold splice
        rw [if_neg (by omega), Nat.sub_self]
        rfl
      · unfold splice
        rw [if_neg (by omega), if_neg (by omega), Function.update_of_ne (by omega),
          show a - dst = (a - (dst + 1)) + 1 from by omega]
        rfl

/-- The size of the memory map that arrives. -/
def Ntbli.arriving (info : Ntbli) : Nat :=
  let size := if info.memmapBase = 0 then 0 else info.memmapSize
  if size ≤ memmapMax then size else memmapMax

/-- The buffers of {lit}`boot.s` and the structures of the loader are apart. -/
structure StartApart (earlyNtbli earlyMemmap rdi : Nat) (info : Ntbli) : Prop where
  buffers : RangesApart earlyNtbli ntbliSize earlyMemmap memmapMax
  source : RangesApart rdi ntbliSize earlyNtbli ntbliSize
  mapInfo : RangesApart info.memmapBase info.arriving earlyNtbli ntbliSize
  map : RangesApart info.memmapBase info.arriving earlyMemmap memmapMax

/-- The parts of boot information around the two fields that {lit}`_start` changes. -/
theorem Ntbli.bytes_parts (info : Ntbli) (base size : Nat) :
    { info with memmapBase := base, memmapSize := size }.bytes =
      info.bytes.take ntbliMemmapBaseOffset ++ (leBytes 8 base ++ (leBytes 8 size ++
        info.bytes.drop (ntbliMemmapSizeOffset + 8))) := by
  have hpack : ∀ base size, { info with memmapBase := base, memmapSize := size }.bytes =
      pack ((ntbliWidths.zip info.values).take 13) ++ (leBytes 8 base ++ (leBytes 8 size ++
        pack ((ntbliWidths.zip info.values).drop 15))) := by
    intro base size
    rw [Ntbli.bytes]
    change pack ((ntbliWidths.zip info.values).take 13 ++ ((8, base) :: (8, size) ::
      (ntbliWidths.zip info.values).drop 15)) = _
    rw [pack_append]
    rfl
  have hself := hpack info.memmapBase info.memmapSize
  have hfront : (pack ((ntbliWidths.zip info.values).take 13)).length = ntbliMemmapBaseOffset := by
    have hwidths : ((ntbliWidths.zip info.values).take 13).map Prod.fst = ntbliWidths.take 13 := rfl
    rw [length_pack, hwidths]
    rfl
  rw [hpack base size, show info.bytes = _ from hself, List.take_left' hfront]
  congr 3

/-- Memory holds boot information at an address. -/
def InfoAt (mem : Nat → UInt8) (addr : Nat) (info : Ntbli) : Prop :=
  bytesAt mem addr ntbliSize = info.bytes

variable {mem : Nat → UInt8} {addr earlyNtbli earlyMemmap rdi : Nat}

/-- A store inside a structure replaces some of its bytes. -/
theorem bytesAt_splice_inside (mem : Nat → UInt8) (addr : Nat) {offset size : Nat}
    {bytes : List UInt8} (h : offset + bytes.length ≤ size) :
    bytesAt (splice mem (addr + offset) bytes) addr size = (bytesAt mem addr size).take offset ++
      (bytes ++ (bytesAt mem addr size).drop (offset + bytes.length)) := by
  obtain ⟨rest, rfl⟩ := Nat.exists_eq_add_of_le h
  rw [take_bytesAt _ _ (by omega), drop_bytesAt _ _ (by omega), Nat.add_assoc, bytesAt_add,
    bytesAt_add, bytesAt_splice_self, bytesAt_splice_of_disjoint _ (Or.inl (by omega)),
    bytesAt_splice_of_disjoint _ (Or.inr (by omega)),
    show offset + (bytes.length + rest) - (offset + bytes.length) = rest from by omega, Nat.add_assoc]

/-- The two fields that {lit}`_start` reads. -/
theorem InfoAt.load64 (h : InfoAt mem addr info) (hfits : info.Fits) :
    load64 mem (addr + ntbliMemmapBaseOffset) = info.memmapBase ∧
      load64 mem (addr + ntbliMemmapSizeOffset) = info.memmapSize := by
  have hbase : info.memmapBase < 256 ^ 8 := hfits (8, info.memmapBase) (by simp [ntbliWidths, Ntbli.values])
  have hsize : info.memmapSize < 256 ^ 8 := hfits (8, info.memmapSize) (by simp [ntbliWidths, Ntbli.values])
  have hfront : (info.bytes.take ntbliMemmapBaseOffset).length = ntbliMemmapBaseOffset := by
    rw [List.length_take, length_ntbliBytes]
    rfl
  have hparts : bytesAt mem addr ntbliSize = info.bytes.take ntbliMemmapBaseOffset ++
      (leBytes 8 info.memmapBase ++ (leBytes 8 info.memmapSize ++
        info.bytes.drop (ntbliMemmapSizeOffset + 8))) :=
    h.trans (info.bytes_parts info.memmapBase info.memmapSize)
  have hdrop := congrArg (List.drop ntbliMemmapBaseOffset) hparts
  rw [List.drop_left' hfront, drop_bytesAt _ _ (by decide)] at hdrop
  constructor
  · have htake := congrArg (List.take 8) hdrop
    rw [List.take_left' (length_leBytes 8 _), take_bytesAt _ _ (by decide)] at htake
    unfold Boot.load64
    rw [htake, leNat_leBytes hbase]
  · have hrest := congrArg (List.drop 8) hdrop
    rw [List.drop_left' (length_leBytes 8 _), drop_bytesAt _ _ (by decide)] at hrest
    have htake := congrArg (List.take 8) hrest
    rw [List.take_left' (length_leBytes 8 _), take_bytesAt _ _ (by decide)] at htake
    unfold Boot.load64
    rw [show addr + ntbliMemmapSizeOffset = addr + ntbliMemmapBaseOffset + 8 from rfl, htake,
      leNat_leBytes hsize]

/-- Two adjacent fields are replaced one after the other. -/
theorem replace_twice {bytes base size rest : List UInt8}
    (h : ntbliMemmapSizeOffset ≤ bytes.length) :
    (bytes.take ntbliMemmapSizeOffset ++ (size ++ rest)).take ntbliMemmapBaseOffset ++
        (base ++ (bytes.take ntbliMemmapSizeOffset ++ (size ++ rest)).drop
          (ntbliMemmapBaseOffset + 8)) =
      bytes.take ntbliMemmapBaseOffset ++ (base ++ (size ++ rest)) := by
  have hfront : (bytes.take ntbliMemmapSizeOffset).length = ntbliMemmapSizeOffset := by
    rw [List.length_take]
    omega
  rw [show ntbliMemmapBaseOffset + 8 = ntbliMemmapSizeOffset from rfl, List.drop_left' hfront,
    List.take_append_of_le_length (by rw [hfront]; decide), List.take_take]
  rfl

/-- What the kernel finds behind {lit}`_start`. -/
theorem startCopy_spec (hinfo : InfoAt mem rdi info) (hfits : info.Fits)
    (hapart : StartApart earlyNtbli earlyMemmap rdi info) :
    InfoAt (startCopy earlyNtbli earlyMemmap rdi mem) earlyNtbli
        { info with memmapBase := earlyMemmap, memmapSize := info.arriving } ∧
      ∀ i < info.arriving, startCopy earlyNtbli earlyMemmap rdi mem (earlyMemmap + i) =
        mem (info.memmapBase + i) := by
  obtain ⟨hbuffers, hsource, hmapInfo, hmap⟩ := hapart
  have hsize : info.arriving ≤ memmapMax := by
    unfold Ntbli.arriving
    dsimp only
    split_ifs <;> omega
  have hinfoSize : ntbliSize = 112 := rfl
  have hbaseOffset : ntbliMemmapBaseOffset = 72 := rfl
  have hsizeOffset : ntbliMemmapSizeOffset = 80 := rfl
  unfold RangesApart at hbuffers hmapInfo hmap
  rw [hinfoSize] at hbuffers hmapInfo
  obtain ⟨mem₁, hmem₁⟩ : ∃ mem₁, mem₁ = splice mem earlyNtbli info.bytes := ⟨_, rfl⟩
  have hfirst : repMovsb ntbliSize rdi earlyNtbli mem = mem₁ := by
    rw [repMovsb_eq hsource, hinfo, hmem₁]
  have hinfo₁ : InfoAt mem₁ earlyNtbli info := by
    unfold InfoAt
    rw [hmem₁, ← length_ntbliBytes info, bytesAt_splice_self]
  obtain ⟨hbase₁, hsize₁⟩ := hinfo₁.load64 hfits
  obtain ⟨mem₂, hmem₂⟩ : ∃ mem₂, mem₂ =
    store64 mem₁ (earlyNtbli + ntbliMemmapSizeOffset) info.arriving := ⟨_, rfl⟩
  have hrun : startCopy earlyNtbli earlyMemmap rdi mem =
      store64 (splice mem₂ earlyMemmap (bytesAt mem₂ info.memmapBase info.arriving))
        (earlyNtbli + ntbliMemmapBaseOffset) earlyMemmap := by
    rw [← repMovsb_eq (by unfold RangesApart; omega), hmem₂]
    unfold startCopy
    simp only [hfirst, hbase₁, hsize₁, Ntbli.arriving]
  have hinfo₂ : bytesAt mem₂ earlyNtbli ntbliSize = info.bytes.take ntbliMemmapSizeOffset ++
      (leBytes 8 info.arriving ++ info.bytes.drop (ntbliMemmapSizeOffset + 8)) := by
    rw [hmem₂, store64, bytesAt_splice_inside _ _ (by rw [length_leBytes]; decide), hinfo₁,
      length_leBytes]
  rw [hrun]
  constructor
  · unfold InfoAt store64
    rw [bytesAt_splice_inside _ _ (by rw [length_leBytes]; decide),
      bytesAt_splice_of_disjoint _ (by rw [length_bytesAt, hinfoSize]; omega), hinfo₂,
      info.bytes_parts earlyMemmap info.arriving, length_leBytes]
    exact replace_twice (by rw [length_ntbliBytes]; decide)
  · intro i hi
    have hlast : store64 (splice mem₂ earlyMemmap (bytesAt mem₂ info.memmapBase info.arriving))
        (earlyNtbli + ntbliMemmapBaseOffset) earlyMemmap (earlyMemmap + i) =
          splice mem₂ earlyMemmap (bytesAt mem₂ info.memmapBase info.arriving)
            (earlyMemmap + i) := by
      unfold store64
      rcases hbuffers with hbuffers | hbuffers
      · exact splice_of_ge _ (by rw [length_leBytes]; omega)
      · exact splice_of_lt _ _ (by omega)
    have hlen : i < (bytesAt mem₂ info.memmapBase info.arriving).length := by
      rw [length_bytesAt]
      exact hi
    have hcopied : splice mem₂ earlyMemmap (bytesAt mem₂ info.memmapBase info.arriving)
        (earlyMemmap + i) = mem₂ (info.memmapBase + i) := by
      exact Option.some.inj ((splice_of_mem mem₂ hlen).trans (getElem?_bytesAt _ _ hi))
    have houtside : ∀ a, a < earlyNtbli ∨ earlyNtbli + 112 ≤ a → mem₂ a = mem a := by
      intro a ha
      rw [hmem₂, hmem₁, store64]
      rcases ha with ha | ha
      · rw [splice_of_lt _ _ (by omega), splice_of_lt _ _ ha]
      · rw [splice_of_ge _ (by rw [length_leBytes]; omega),
          splice_of_ge _ (by rw [length_ntbliBytes]; omega)]
    rw [hlast, hcopied, houtside _ (by omega)]

/-! ## The boot information of the kernel -/

/-- {lit}`g_boot_info` and {lit}`g_memmap_store`. -/
structure BootStore where
  bootInfo : Ntbli
  memmapStore : Nat → UInt8

/-- {lit}`MEMMAP_STORE_SIZE`. -/
def memmapStoreSize : Nat := 65536

/-- The statuses of {lit}`boot_info_from_uefi`.  The one for a null pointer is not used elsewhere. -/
inductive UefiStatus
  | NnullPointer
  | of (status : Nstatus)
deriving DecidableEq

/-- {lit}`boot_info_from_uefi`.  The memory map is copied to {lit}`g_memmap_store`, which is at the
address {lit}`store`. -/
def bootInfoFromUefi (store : Nat) (mem : Nat → UInt8) (addr : Nat) : Eff UefiStatus BootStore Unit :=
  if addr = 0 then Eff.fail .NnullPointer
  else if addr % 8 ≠ 0 then Eff.fail (.of .NinvalidPointer)
  else
    let info := decodeNtbli (bytesAt mem addr ntbliSize)
    if info.magic ≠ ntbliMagic then Eff.fail (.of .NinvalidFormat)
    else if info.version ≠ ntbliVersion then Eff.fail (.of .Nunsupported)
    else if info.size ≠ ntbliSize then Eff.fail (.of .NinvalidFormat)
    else if info.memmapBase ≠ 0 ∧ info.memmapSize ≠ 0 ∧ info.memmapSize ≤ memmapStoreSize then
      Eff.modify (fun s => {
        bootInfo := { info with memmapBase := store }
        memmapStore := splice s.memmapStore 0 (bytesAt mem info.memmapBase info.memmapSize) })
    else
      Eff.modify (fun s => { s with bootInfo := { info with memmapBase := 0, memmapSize := 0 } })

/-- Boot information of the right kind. -/
structure Ntbli.Valid (info : Ntbli) : Prop where
  magic : info.magic = ntbliMagic
  version : info.version = ntbliVersion
  size : info.size = ntbliSize

/-- What {lit}`boot_info_from_uefi` does with boot information that it accepts. -/
theorem bootInfoFromUefi_run (store : Nat) (hnull : addr ≠ 0) (halign : addr % 8 = 0)
    (hinfo : InfoAt mem addr info) (hfits : info.Fits) (hvalid : info.Valid)
    (hsmall : info.memmapSize ≤ memmapStoreSize) (hbase : info.memmapBase ≠ 0) (s : BootStore) :
    bootInfoFromUefi store mem addr s = (.ok (),
      if info.memmapSize = 0 then { s with bootInfo := { info with memmapBase := 0, memmapSize := 0 } }
      else {
        bootInfo := { info with memmapBase := store }
        memmapStore := splice s.memmapStore 0 (bytesAt mem info.memmapBase info.memmapSize) }) := by
  have hdecode : decodeNtbli (bytesAt mem addr ntbliSize) = info :=
    (congrArg decodeNtbli hinfo).trans (decodeNtbli_bytes hfits)
  unfold bootInfoFromUefi
  dsimp only
  rw [hdecode, if_neg hnull, if_neg (not_not.mpr halign), if_neg (not_not.mpr hvalid.magic),
    if_neg (not_not.mpr hvalid.version), if_neg (not_not.mpr hvalid.size)]
  by_cases hempty : info.memmapSize = 0
  · rw [if_neg (fun h => h.2.1 hempty), if_pos hempty]
    rfl
  · rw [if_pos ⟨hbase, hempty, hsmall⟩, if_neg hempty]
    rfl

/-- Boot information with another memory map. -/
theorem Ntbli.Fits.withMap (h : info.Fits) {base size : Nat} (hbase : base < 2 ^ 64)
    (hsize : size < 2 ^ 64) : { info with memmapBase := base, memmapSize := size }.Fits := by
  simp only [Ntbli.Fits, ntbliWidths, Ntbli.values, List.zip_cons_cons, List.zip_nil_left,
    List.forall_mem_cons] at h ⊢
  simp_all

/-- A map that is cut short has the first descriptors. -/
theorem memmapOf_prefix {n : Nat} (h : n ≤ info.memmapSize) :
    memmapOf { info with memmapSize := n } map <+: memmapOf info map := by
  have hcount : ntbliMemmapCount { info with memmapSize := n } ≤ ntbliMemmapCount info := by
    unfold ntbliMemmapCount
    split
    next => exact Nat.zero_le _
    next => exact Nat.div_le_div_right h
  obtain ⟨rest, hrest⟩ := Nat.exists_eq_add_of_le hcount
  rw [memmapOf_eq, memmapOf_eq info, hrest, List.range_add, List.map_append]
  exact List.prefix_append _ _

theorem memmapOf_empty (h : info.memmapBase = 0 ∨ info.memmapSize = 0) : memmapOf info map = [] := by
  have hcount : ntbliMemmapCount info = 0 := by
    unfold ntbliMemmapCount
    split
    next => rfl
    next hok =>
      rcases h with h | h
      · exact absurd (Or.inl h) hok
      · rw [h, Nat.zero_div]
  rw [memmapOf_eq, hcount]
  rfl

theorem Ntbli.arriving_le (info : Ntbli) :
    info.arriving ≤ info.memmapSize ∧ info.arriving ≤ memmapMax := by
  unfold Ntbli.arriving
  dsimp only
  split_ifs <;> omega

/-- The loader leaves valid boot information and a memory map in memory.  Behind {lit}`_start` and
{lit}`boot_info_from_uefi` the kernel has the same boot information, but for where the map is and how
long, and the descriptors that it finds are the first ones of the loader, all of them if the map has
at most 64 KiB. -/
theorem uefi_info_arrives (store : Nat) (hinfo : InfoAt mem rdi info) (hfits : info.Fits)
    (hvalid : info.Valid) (hapart : StartApart earlyNtbli earlyMemmap rdi info)
    (hearly : earlyNtbli ≠ 0) (haligned : earlyNtbli % 8 = 0) (hmap : earlyMemmap ≠ 0)
    (hwidth : earlyMemmap < 2 ^ 64) (hstore : store ≠ 0) (s : BootStore) :
    ∃ s', bootInfoFromUefi store (startCopy earlyNtbli earlyMemmap rdi mem) earlyNtbli s =
        (.ok (), s') ∧
      s'.bootInfo = { info with
        memmapBase := s'.bootInfo.memmapBase, memmapSize := s'.bootInfo.memmapSize } ∧
      memmapOf s'.bootInfo s'.memmapStore <+: memmapOf info (fun i => mem (info.memmapBase + i)) ∧
      (info.memmapSize ≤ memmapMax →
        memmapOf s'.bootInfo s'.memmapStore = memmapOf info (fun i => mem (info.memmapBase + i))) := by
  obtain ⟨harrived, hcopied⟩ := startCopy_spec hinfo hfits hapart
  obtain ⟨hle, hmax⟩ := info.arriving_le
  have hwidthMax : memmapMax < 2 ^ 64 := by decide
  have hrun := bootInfoFromUefi_run store hearly haligned harrived
    (hfits.withMap hwidth (by omega)) ⟨hvalid.magic, hvalid.version, hvalid.size⟩ hmax hmap s
  dsimp only at hrun
  by_cases harr : info.arriving = 0
  · rw [if_pos harr] at hrun
    refine ⟨_, hrun, rfl, ?_, fun hsmall => ?_⟩
    · rw [memmapOf_empty (Or.inl rfl)]
      exact List.nil_prefix
    · have hnone : info.memmapBase = 0 ∨ info.memmapSize = 0 := by
        unfold Ntbli.arriving at harr
        dsimp only at harr
        by_cases hbase : info.memmapBase = 0
        · exact Or.inl hbase
        · rw [if_neg hbase, if_pos hsmall] at harr
          exact Or.inr harr
      rw [memmapOf_empty (Or.inl rfl), memmapOf_empty hnone]
  · rw [if_neg harr] at hrun
    have hbase : info.memmapBase ≠ 0 := by
      intro hbase
      unfold Ntbli.arriving at harr
      rw [if_pos hbase] at harr
      exact harr rfl
    have hsame : memmapOf { info with memmapBase := store, memmapSize := info.arriving }
        (splice s.memmapStore 0 (bytesAt (startCopy earlyNtbli earlyMemmap rdi mem) earlyMemmap
          info.arriving)) =
          memmapOf { info with memmapSize := info.arriving } (fun i => mem (info.memmapBase + i)) := by
      refine memmapOf_congr (iff_of_false hstore hbase) rfl rfl (fun i hi => ?_)
      have hlen : i < (bytesAt (startCopy earlyNtbli earlyMemmap rdi mem) earlyMemmap
          info.arriving).length := by
        rw [length_bytesAt]
        exact hi
      have hget : some (splice s.memmapStore 0 (bytesAt (startCopy earlyNtbli earlyMemmap rdi mem)
          earlyMemmap info.arriving) (0 + i)) = _ :=
        (splice_of_mem s.memmapStore hlen).trans (getElem?_bytesAt _ _ hi)
      rw [Nat.zero_add] at hget
      exact (Option.some.inj hget).trans (hcopied i hi)
    refine ⟨_, hrun, rfl, ?_, fun hsmall => ?_⟩
    · exact hsame ▸ memmapOf_prefix hle
    · have hwhole : info.arriving = info.memmapSize := by
        unfold Ntbli.arriving
        dsimp only
        rw [if_neg hbase, if_pos hsmall]
      refine hsame.trans ?_
      rw [hwhole]

/-- One page of conventional memory. -/
def smallDesc : MemDesc :=
  ⟨ntbliMemConventional, 0, 0x400000, 0, 1, 0⟩

/-- Boot information with a map of one descriptor at an address. -/
def loaderInfo : Ntbli :=
  { Ntbli.start with
    memmapBase := 0x2000
    memmapSize := memDescSize
    memmapDescSize := memDescSize }

/-- Memory with this boot information at another address. -/
def loaderMemory : Nat → UInt8 :=
  splice (splice (fun _ => 0) 0x2000 smallDesc.bytes) 0x1000 loaderInfo.bytes

theorem loaderMemory_info : InfoAt loaderMemory 0x1000 loaderInfo := by
  unfold InfoAt loaderMemory
  rw [← length_ntbliBytes loaderInfo, bytesAt_splice_self]

theorem uefi_info_arrives_small : ∃ s',
    bootInfoFromUefi 0x5000 (startCopy 0x20000 0x30000 0x1000 loaderMemory) 0x20000
        ⟨Ntbli.start, fun _ => 0⟩ = (.ok (), s') ∧
      memmapOf s'.bootInfo s'.memmapStore =
        memmapOf loaderInfo (fun i => loaderMemory (loaderInfo.memmapBase + i)) := by
  have hapart : StartApart 0x20000 0x30000 0x1000 loaderInfo :=
    ⟨Or.inl (by decide), Or.inl (by decide), Or.inl (by decide), Or.inl (by decide)⟩
  obtain ⟨s', hrun, -, -, hwhole⟩ := uefi_info_arrives 0x5000 loaderMemory_info (by decide)
    ⟨rfl, rfl, rfl⟩ hapart (by decide) (by decide) (by decide) (by decide) (by decide)
    ⟨Ntbli.start, fun _ => 0⟩
  exact ⟨s', hrun, hwhole (by decide)⟩

end Boot
end Nyxis
