import Nyxis.Nyfs.Growth
import Nyxis.Nyfs.Table
import Mathlib.Tactic.IntervalCases

/-!
# Directories on a volume

The calls on directory tables, specified over the buckets that the table holds.

Main results:

- Theorem {lit}`Dir.lookup`: a lookup finds the record of a name.
- Theorem {lit}`Dir.insert`: an insertion adds a record, or fails and leaves the table alone.
- Theorem {lit}`Dir.remove`: a removal takes the record of a name out of the table.
- Theorem {lit}`Dir.readdir`: listing numbers the records in the order of the buckets.
-/

namespace Nyxis
namespace Nyfs

open Bytes

variable {D : Type} [ReliableDevice D] {L : Layout} {V V' : View}
variable {root : Nat} {segs : List Segment} {buckets : Nat → List Record} {free : Nat}

/-- A stream that holds a table. -/
structure Dir (L : Layout) (V : View) (root : Nat) (segs : List Segment)
    (buckets : Nat → List Record) (free : Nat) : Prop where
  stream : Stream L V root segs
  nonempty : segs ≠ []
  table : Table (streamAt L V (dataBlocks segs)) buckets free
  free_le : free ≤ capacity L segs

/-- The record of a name. -/
def recordOf (buckets : Nat → List Record) (name : List UInt8) : Option Record :=
  (entries buckets).find? (fun r => r.name = name)

/-- A name that the calls accept. -/
structure NameOk (name : List UInt8) : Prop where
  pos : 0 < name.length
  le : name.length ≤ nyfsNameMax

theorem NameOk.not_invalid {name : List UInt8} (h : NameOk name) :
    ¬(name.length = 0 ∨ nyfsNameMax < name.length) := by
  have := h.pos
  have := h.le
  omega

/-! ## Sizes -/

theorem leBytes_ne_nil (n : Nat) : leBytes 8 n ≠ [] := by
  intro h
  have hlen := congrArg List.length h
  rw [length_leBytes] at hlen
  exact absurd hlen (by decide)

theorem encodeDirhashHeader_ne_nil (h : DirhashHeader) : encodeDirhashHeader h ≠ [] := by
  intro hnil
  have hlen := congrArg List.length hnil
  rw [length_encodeDirhashHeader] at hlen
  exact absurd hlen (by decide)

theorem encodeDirent_ne_nil (de : Dirent) : encodeDirent de ≠ [] := by
  intro hnil
  have hlen := congrArg List.length hnil
  rw [length_encodeDirent] at hlen
  exact absurd hlen (by decide)

theorem Table.length_entries_le {f : Nat → UInt8} (h : Table f buckets free) :
    (entries buckets).length ≤ free := by
  have hnodup : ((entries buckets).map Record.offset).Nodup := by
    refine List.Nodup.map_on (fun r hr s hs heq => ?_) h.entries_nodup
    by_contra hne
    rcases h.apart_of_ne hr hs hne with hap | hap
    · unfold Record.stop at hap
      omega
    · unfold Record.stop at hap
      omega
  have hle := length_le_of_nodup (n := free) hnodup (by
    intro o ho
    obtain ⟨r, hr, rfl⟩ := List.mem_map.mp ho
    have hstop := (h.valid r hr).stop_le
    unfold Record.stop at hstop
    omega)
  rwa [List.length_map] at hle

section Reading

variable (hL : L.Valid)

include hL

theorem Dir.free_lt (h : Dir L V root segs buckets free) :
    free + L.firstDataBlock * L.blockSize < 2 ^ 64 := by
  have := h.stream.capacity_lt hL
  have := h.free_le
  omega

theorem Layout.Valid.firstDataBlock_ge : 4 ≤ L.firstDataBlock := by
  have hsize := hL.blockSize_ge
  have hib : 1 ≤ L.inodeBitmapStart := by
    by_contra h
    have := hL.superblock_le
    rw [show L.inodeBitmapStart = 0 by omega, Nat.zero_mul] at this
    omega
  have step : ∀ {a b : Nat}, a * L.blockSize < b * L.blockSize → a + 1 ≤ b :=
    fun h => Nat.lt_of_mul_lt_mul_right h
  have hcount := hL.inodeCount_pos
  have hfirst := hL.firstDataBlock_lt
  have h1 : L.inodeBitmapStart + 1 ≤ L.allocMetaStart := by
    have := hL.inodeBitmap_le
    exact step (by omega)
  have h2 : L.allocMetaStart + 1 ≤ L.inodeTableStart := by
    have := hL.blockBitmap_le
    exact step (by omega)
  have h3 : L.inodeTableStart + 1 ≤ L.firstDataBlock := by
    have := hL.inodeTable_le
    exact step (by omega)
  omega

theorem Layout.Valid.firstData_bytes : 2048 ≤ L.firstDataBlock * L.blockSize := by
  have hsize := hL.blockSize_ge
  calc 2048 ≤ 4 * L.blockSize := by omega
    _ ≤ L.firstDataBlock * L.blockSize := Nat.mul_le_mul_right _ hL.firstDataBlock_ge

/-- Reading inside the table. -/
theorem Dir.readAt (h : Dir L V root segs buckets free) (off n : Nat)
    (hle : off + n ≤ capacity L segs) :
    Does L V (extentReadAt root off n : NyfsM D _)
      (.ok (bytesAt (streamAt L V (dataBlocks segs)) off n)) V := by
  have hread := h.stream.readAt (D := D) hL off n
  rwa [Nat.min_eq_left (by omega)] at hread

theorem Dir.does_header (h : Dir L V root segs buckets free) :
    Does L V (dirhashHeader root : NyfsM D _) (.ok (tableHeader (entries buckets).length free)) V := by
  have hfree := h.free_lt hL
  have hge := h.table.free_ge
  have hcount := h.table.length_entries_le
  have hle := h.free_le
  have hread := h.readAt (D := D) hL 0 32 (by omega)
  rw [h.table.header] at hread
  refine hread.bind ?_
  have hdecode : decodeDirhashHeader (encodeDirhashHeader
      (tableHeader (entries buckets).length free)) = tableHeader (entries buckets).length free := by
    refine decodeDirhashHeader_encode ?_
    simp [DirhashHeader.fields, tableHeader, nyfsDirhashMagic, nyfsDirhashDefaultBuckets]
    omega
  rw [hdecode, if_neg]
  · exact Does.pure _
  · simp [tableHeader, nyfsDirhashDefaultBuckets]

theorem Dir.link_lt (h : Dir L V root segs buckets free) {rs : List Record}
    (hrs : ∀ r ∈ rs, r ∈ entries buckets) : linkOf rs < 2 ^ 64 := by
  have hfree := h.free_lt hL
  have hlt : free < 2 ^ 64 := by omega
  exact linkOf_lt hlt (fun r hr => h.table.valid r (hrs r hr))

theorem Dir.does_bucketHead (h : Dir L V root segs buckets free) {b : Nat}
    (hb : b < nyfsDirhashDefaultBuckets) :
    Does L V (bucketHead root b : NyfsM D _) (.ok (linkOf (buckets b))) V := by
  have hge := h.table.free_ge
  have hle := h.free_le
  have hb' : b < 16 := hb
  have hlink := h.link_lt hL (fun r hr => mem_entries.mpr ⟨b, hb, hr⟩)
  have hread := h.readAt (D := D) hL (bucketOffset b) 8 (by
    unfold bucketOffset
    omega)
  rw [h.table.head b hb] at hread
  refine hread.bind ?_
  rw [leNat_leBytes hlink]
  exact Does.pure _

theorem Dir.does_slot (h : Dir L V root segs buckets free) (name : List UInt8) :
    Does L V (dirhashSlot root name : NyfsM D _)
      (.ok (tableHeader (entries buckets).length free,
        linkOf (buckets (nyfsHashName name % nyfsDirhashDefaultBuckets)))) V := by
  refine (h.does_header hL).bind ?_
  refine (h.does_bucketHead hL (Nat.mod_lt _ (by decide))).bind ?_
  exact Does.pure _

/-! ## Records -/

omit hL in
theorem Record.dirent_fits {r : Record} {next : Nat} (hr : r.Valid free) (hnext : next < 2 ^ 64) :
    ∀ f ∈ (r.dirent next).fields, f.2 < 256 ^ f.1 := by
  have hino := hr.ino_lt
  have htype := hr.type_lt
  have hhash := nyfsHashName_lt r.name
  have hlen : r.name.length ≤ 255 := hr.name_le
  simp [Dirent.fields, Record.dirent]
  omega

theorem Dir.does_readDirent (h : Dir L V root segs buckets free) {r : Record} {next : Nat}
    (hr : r ∈ entries buckets) (hat : RecordAt (streamAt L V (dataBlocks segs)) r next)
    (hnext : next < 2 ^ 64) :
    Does L V (readDirent root r.offset : NyfsM D _) (.ok (r.dirent next)) V := by
  have hvalid := h.table.valid r hr
  have hstop := hvalid.stop_le
  have hle := h.free_le
  have hread := h.readAt (D := D) hL r.offset 24 (by
    unfold Record.stop at hstop
    omega)
  rw [hat.dirent] at hread
  refine hread.bind ?_
  rw [if_neg (by simp), decodeDirent_encode (Record.dirent_fits hvalid hnext)]
  exact Does.pure _

theorem Dir.does_nameMatches (h : Dir L V root segs buckets free) {r : Record} {next : Nat}
    (hr : r ∈ entries buckets) (hat : RecordAt (streamAt L V (dataBlocks segs)) r next)
    (name : List UInt8) :
    Does L V (nameMatches root (nyfsHashName name) name r.offset (r.dirent next) : NyfsM D _)
      (.ok (decide (r.name = name))) V := by
  have hfree := h.free_lt hL
  have hvalid := h.table.valid r hr
  have hstop := hvalid.stop_le
  have hle := h.free_le
  unfold Record.stop at hstop
  by_cases hcond : (r.dirent next).nameHash = nyfsHashName name ∧
      (r.dirent next).nameLen = name.length
  · have hlen : r.name.length = name.length := hcond.2
    have hread := h.readAt (D := D) hL (r.offset + 24) name.length (by omega)
    rw [← hlen, hat.name] at hread
    rw [nameMatches, if_pos hcond, Nat.mod_eq_of_lt (by omega), ← hlen]
    exact hread.bind (Does.pure _)
  · have hne : r.name ≠ name := by
      rintro rfl
      exact hcond ⟨rfl, rfl⟩
    rw [nameMatches, if_neg hcond, decide_eq_false hne]
    exact Does.pure _

/-! ## Finding -/

/-- The record of a name in a bucket with the offset of the one before it. -/
def findLink (name : List UInt8) : Nat → List Record → Option (Nat × Dirent)
  | _, [] => none
  | prev, r :: rest =>
      if r.name = name then some (prev, r.dirent (linkOf rest)) else findLink name r.offset rest

/-- The outcome of a search. -/
def foundOr {α : Type} : Option α → Except Stop α
  | some a => .ok a
  | none => .error (.status .NnotFound)

theorem Dir.does_find (h : Dir L V root segs buckets free) (name : List UInt8) {rs : List Record}
    {fuel prev : Nat} (hfuel : rs.length < fuel) (hrs : ∀ r ∈ rs, r ∈ entries buckets)
    (hlinked : Linked (streamAt L V (dataBlocks segs)) rs) :
    Does L V (dirhashFind root (nyfsHashName name) name fuel prev (linkOf rs) : NyfsM D _)
      (foundOr (findLink name prev rs)) V := by
  induction rs generalizing fuel prev with
  | nil =>
      obtain ⟨fuel, rfl⟩ := Nat.exists_eq_add_one_of_ne_zero (Nat.ne_of_gt hfuel)
      rw [dirhashFind, if_pos (by rfl : linkOf [] = 0)]
      exact Does.fail _
  | cons r rs ih =>
      obtain ⟨fuel, rfl⟩ := Nat.exists_eq_add_one_of_ne_zero (Nat.ne_zero_of_lt hfuel)
      have hr := hrs r (List.mem_cons_self ..)
      have hrest : ∀ s ∈ rs, s ∈ entries buckets := fun s hs => hrs s (List.mem_cons_of_mem _ hs)
      have hoff : linkOf (r :: rs) ≠ 0 := by
        have := (h.table.valid r hr).offset_ge
        simp only [linkOf]
        omega
      rw [dirhashFind, if_neg hoff, findLink]
      refine (h.does_readDirent hL hr hlinked.1 (h.link_lt hL hrest)).bind ?_
      refine (h.does_nameMatches hL hr hlinked.1 name).bind ?_
      by_cases hname : r.name = name
      · rw [if_pos hname, if_pos (decide_eq_true hname)]
        exact Does.pure _
      · rw [if_neg hname, if_neg (by simpa using hname)]
        exact ih (by rw [List.length_cons] at hfuel; omega) hrest hlinked.2

/-! ## Looking up -/

omit hL in
theorem find?_name_eq_some {rs : List Record} (hnodup : (rs.map Record.name).Nodup)
    {name : List UInt8} {r : Record} :
    rs.find? (fun s => s.name = name) = some r ↔ r ∈ rs ∧ r.name = name := by
  constructor
  · intro h
    exact ⟨List.mem_of_find?_eq_some h, by simpa using List.find?_some h⟩
  · rintro ⟨hmem, rfl⟩
    induction rs with
    | nil => cases hmem
    | cons s rs ih =>
        rw [List.map_cons, List.nodup_cons] at hnodup
        rcases List.mem_cons.mp hmem with rfl | hmem
        · simp
        · have hne : s.name ≠ r.name := by
            intro heq
            exact hnodup.1 (heq ▸ List.mem_map_of_mem hmem)
          rw [List.find?_cons_of_neg (by simpa using hne)]
          exact ih hnodup.2 hmem

omit hL in
theorem Table.recordOf_eq_some {f : Nat → UInt8} (h : Table f buckets free) {name : List UInt8}
    {r : Record} : recordOf buckets name = some r ↔ r ∈ entries buckets ∧ r.name = name :=
  find?_name_eq_some h.names

omit hL in
theorem Table.bucket_names {f : Nat → UInt8} (h : Table f buckets free) {b : Nat}
    (hb : b < nyfsDirhashDefaultBuckets) : ((buckets b).map Record.name).Nodup := by
  obtain ⟨front, back, hself, -⟩ := entries_split_self buckets hb
  have hall := h.names
  rw [hself, List.map_append, List.map_append] at hall
  exact (List.nodup_append.mp (List.nodup_append.mp hall).1).2.1

omit hL in
/-- A name is looked for in its bucket. -/
theorem Table.recordOf_eq_bucket {f : Nat → UInt8} (h : Table f buckets free) (name : List UInt8) :
    recordOf buckets name =
      (buckets (nyfsHashName name % nyfsDirhashDefaultBuckets)).find? (fun r => r.name = name) := by
  have hb : nyfsHashName name % nyfsDirhashDefaultBuckets < nyfsDirhashDefaultBuckets :=
    Nat.mod_lt _ (by decide)
  ext r
  rw [h.recordOf_eq_some, find?_name_eq_some (h.bucket_names hb)]
  constructor
  · rintro ⟨hmem, rfl⟩
    obtain ⟨c, hc, hr⟩ := mem_entries.mp hmem
    rw [h.hash c hc r hr]
    exact ⟨hr, rfl⟩
  · rintro ⟨hmem, hname⟩
    exact ⟨mem_entries.mpr ⟨_, hb, hmem⟩, hname⟩

omit hL in
theorem findLink_map (name : List UInt8) (prev : Nat) (rs : List Record) :
    (findLink name prev rs).map (fun x => (x.2.ino, x.2.fileType)) =
      (rs.find? (fun r => r.name = name)).map (fun r => (r.ino, r.type)) := by
  induction rs generalizing prev with
  | nil => rfl
  | cons r rs ih =>
      rw [findLink]
      by_cases hname : r.name = name
      · rw [if_pos hname, List.find?_cons_of_pos (by simpa using hname)]
        rfl
      · rw [if_neg hname, List.find?_cons_of_neg (by simpa using hname), ih]

theorem Dir.bucket_length_lt (h : Dir L V root segs buckets free) {b : Nat}
    (hb : b < nyfsDirhashDefaultBuckets) : (buckets b).length < linkFuel := by
  have hfree := h.free_lt hL
  have hfirst := hL.firstData_bytes
  have hcount := h.table.length_entries_le
  obtain ⟨front, back, hself, -⟩ := entries_split_self buckets hb
  rw [hself, List.length_append, List.length_append] at hcount
  rw [linkFuel]
  omega

theorem Dir.does_findBucket (h : Dir L V root segs buckets free) (name : List UInt8) :
    Does L V (dirhashFind root (nyfsHashName name) name linkFuel 0
        (linkOf (buckets (nyfsHashName name % nyfsDirhashDefaultBuckets))) : NyfsM D _)
      (foundOr (findLink name 0 (buckets (nyfsHashName name % nyfsDirhashDefaultBuckets)))) V := by
  have hb : nyfsHashName name % nyfsDirhashDefaultBuckets < nyfsDirhashDefaultBuckets :=
    Nat.mod_lt _ (by decide)
  exact h.does_find hL name (h.bucket_length_lt hL hb)
    (fun r hr => mem_entries.mpr ⟨_, hb, hr⟩) (h.table.linked _ hb)

/-- A lookup finds the record of a name. -/
theorem Dir.lookup {dir : Inode} (h : Dir L V dir.dirHashRoot segs buckets free)
    {name : List UInt8} (hname : NameOk name) :
    Does L V (dirhashLookup dir name : NyfsM D _)
      (foundOr ((recordOf buckets name).map (fun r => (r.ino, r.type)))) V := by
  have hroot : dir.dirHashRoot ≠ nyfsBlknoNone :=
    mt (h.stream.chain.root_eq_none hL).mp h.nonempty
  rw [dirhashLookup, if_neg hroot, if_neg hname.not_invalid]
  refine (h.does_slot hL name).bind ?_
  have hfind := h.does_findBucket (D := D) hL name
  rw [h.table.recordOf_eq_bucket, ← findLink_map name 0]
  cases hcase : findLink name 0 (buckets (nyfsHashName name % nyfsDirhashDefaultBuckets)) with
  | none =>
      rw [hcase] at hfind
      exact hfind.bind_error
  | some found =>
      rw [hcase] at hfind
      exact hfind.bind (Does.pure _)

end Reading

/-! ## Inserting -/

/-- A table survives writes at or behind its free offset. -/
theorem Dir.keep {root' : Nat} {segs' : List Segment} {taken touched : List Nat}
    (h : Dir L V root segs buckets free)
    (hlong : Lengthens L V root segs V' root' segs' taken touched)
    (hstream : ∀ o, o < free →
      streamAt L V' (dataBlocks segs') o = streamAt L V (dataBlocks segs') o) :
    Dir L V' root segs' buckets free := by
  obtain ⟨more, hmore⟩ := hlong.datas
  have hroot := hlong.root_eq h.nonempty
  have hle := h.free_le
  refine ⟨hroot ▸ hlong.stream, ?_, ?_, ?_⟩
  · intro hnil
    have hlists := hlong.lists
    rw [hnil, listBlocks, listBlocks, List.map_nil, List.prefix_nil, List.map_eq_nil_iff] at hlists
    exact h.nonempty hlists
  · refine h.table.congr (fun o ho => ?_)
    rw [hstream o ho, ← hmore]
    exact streamAt_append_left V more (by unfold capacity at hle; omega)
  · refine hle.trans ?_
    unfold capacity
    rw [← hmore, List.length_append]
    exact Nat.mul_le_mul_right _ (Nat.le_add_right _ _)

section Inserting

variable (hL : L.Valid)

include hL

theorem capacity_mod (segs : List Segment) : capacity L segs % 8 = 0 := by
  unfold capacity
  rw [Nat.mul_mod, hL.blockSize_mod, Nat.mul_zero, Nat.zero_mod]

/-- A record that fits the stream fits it with its padding. -/
theorem record_fits {n : Nat} (hmod : free % 8 = 0) (hle : free + 24 + n ≤ capacity L segs) :
    free + recordSize n ≤ capacity L segs := by
  have := capacity_mod hL segs
  unfold recordSize
  omega

omit hL in
/-- A write that ends in the block behind the stream needs one block. -/
theorem growthNeed_eq_one {off size : Nat} (hs : 0 < L.blockSize)
    (hlo : capacity L segs < off + size) (hhi : off + size ≤ capacity L segs + L.blockSize)
    (hlt : off + size + L.blockSize - 1 < 2 ^ 64) : growthNeed L segs off size = 1 := by
  have hdiv : (off + size + L.blockSize - 1) / L.blockSize = (dataBlocks segs).length + 1 := by
    unfold capacity at hlo hhi
    refine Nat.div_eq_of_lt_le ?_ ?_
    · rw [Nat.add_mul, Nat.one_mul]
      omega
    · rw [Nat.add_mul, Nat.add_mul, Nat.one_mul]
      omega
  rw [growthNeed, Nat.mod_eq_of_lt hlt, hdiv, Nat.add_sub_cancel_left]

omit hL in
theorem planMany_one (bits : Nat → Bool) (tail : Option Tail) :
    planMany L 1 bits tail = (planOne L bits tail).map (fun p => [(p.1, p.2.1)]) := by
  cases hplan : planOne L bits tail with
  | none => rw [planMany, hplan, Option.bind_none, Option.map_none]
  | some p => rw [planMany, hplan, Option.bind_some, planMany, Option.map_some, Option.map_some]

/-- A write that ends in the block behind the stream takes one block, or none is left. -/
theorem Stream.writeAt_behind {root : Nat} (hS : Stream L V root segs) (hR : Ready L V)
    (hset : ∀ b ∈ chainBlocks segs, V.blockBit b = true) (hnil : segs ≠ []) (off : Nat)
    {bytes : List UInt8} (hlo : capacity L segs < off + bytes.length)
    (hhi : off + bytes.length ≤ capacity L segs + L.blockSize) (hoff : off ≤ capacity L segs) :
    (∃ segs' V' taken,
      Does L V (extentWriteAt root off bytes : NyfsM D _) (.ok (.ok bytes.length, root)) V' ∧
      Lengthens L V root segs V' root segs' taken (chainBlocks segs') ∧
      streamAt L V' (dataBlocks segs') = splice (streamAt L V (dataBlocks segs')) off bytes ∧
      capacity L segs' = capacity L segs + L.blockSize ∧
      planOne L V.blockBit (tailOf segs) ≠ none) ∨
    (Does L V (extentWriteAt root off bytes : NyfsM D _) (.ok (.error .NdiskFull, root)) V ∧
      planOne L V.blockBit (tailOf segs) = none) := by
  have hs : 0 < L.blockSize := by
    have := hL.blockSize_ge
    omega
  have hcap := hS.capacity_lt hL
  have hfirst := hL.firstData_bytes
  have hblock : L.blockSize * 2 ≤ L.firstDataBlock * L.blockSize := by
    rw [Nat.mul_comm]
    exact Nat.mul_le_mul_right _ (le_trans (by decide) hL.firstDataBlock_ge)
  have hlt : off + bytes.length + L.blockSize - 1 < 2 ^ 64 := by omega
  have hne : bytes ≠ [] := by
    rintro rfl
    rw [List.length_nil] at hlo
    omega
  have hneed := growthNeed_eq_one hs hlo hhi hlt
  obtain ⟨res, root', segs', V', taken, k, hdoes, hlong, hsplice, hout⟩ :=
    hS.writeAt (D := D) hL hR hset off bytes
  obtain rfl := hlong.root_eq hnil
  cases hout with
  | written ds hplan hdata htaken hall hle =>
      left
      rw [if_neg hne, hneed, planMany_one] at hplan
      rw [hall] at hsplice
      have hlen : ds.length = 1 := by
        obtain ⟨p, -, rfl⟩ := Option.map_eq_some_iff.mp hplan
        rfl
      refine ⟨segs', V', taken, hdoes, hlong, hsplice, ?_, ?_⟩
      · rw [capacity, hdata, List.length_append, List.length_map, hlen, Nat.add_mul, Nat.one_mul]
        rfl
      · intro hnone
        rw [hnone] at hplan
        cases hplan
  | full hne hplan hk hsame htaken =>
      right
      rw [hneed, planMany_one, Option.map_eq_none_iff] at hplan
      obtain ⟨rfl, -, rfl⟩ := hsame hplan
      exact ⟨hdoes, hplan⟩
  | wrapped ds hne hplan hdata htaken hwrap => omega

/-- Two writes one behind the other that end in the block behind the stream at the latest. -/
theorem Stream.writePair {root : Nat} (hS : Stream L V root segs) (hR : Ready L V)
    (hset : ∀ b ∈ chainBlocks segs, V.blockBit b = true) (hnil : segs ≠ []) (off : Nat)
    {front back : List UInt8} (hfront : front ≠ []) (hback : back ≠ [])
    (hoff : off ≤ capacity L segs) (hsize : front.length + back.length ≤ L.blockSize) :
    ∃ res segs' V' taken,
      Does L V (extentWriteAt root off front >>= fun first =>
        thenWriteAt first (off + front.length) back : NyfsM D _) (.ok (res, root)) V' ∧
      Lengthens L V root segs V' root segs' taken (chainBlocks segs') ∧
      ((res = .ok back.length ∧
          streamAt L V' (dataBlocks segs') =
            splice (streamAt L V (dataBlocks segs')) off (front ++ back) ∧
          off + front.length + back.length ≤ capacity L segs' ∧
          (off + front.length + back.length ≤ capacity L segs ∧ segs' = segs ∧ taken = [] ∨
            capacity L segs < off + front.length + back.length ∧
              planOne L V.blockBit (tailOf segs) ≠ none)) ∨
        (res = .error .NdiskFull ∧ segs' = segs ∧ taken = [] ∧
          (∀ o, o < off → streamAt L V' (dataBlocks segs) o = streamAt L V (dataBlocks segs) o) ∧
          capacity L segs < off + front.length + back.length ∧
          planOne L V.blockBit (tailOf segs) = none)) := by
  have hs : 0 < L.blockSize := by
    have := hL.blockSize_ge
    omega
  have hlen : front.length ≠ 0 := fun h => hfront (List.eq_nil_of_length_eq_zero h)
  by_cases hfit : off + front.length ≤ capacity L segs
  · -- the first write lies inside the stream
    obtain ⟨V₁, hdoes₁, hS₁, htakes₁, hsplice₁⟩ := hS.writeAt_within (D := D) hL hR off hfront hfit
    have hbits : V₁.blockBit = V.blockBit := by
      rw [htakes₁.mark_eq]
      funext b
      simp [mark]
    have hset₁ : ∀ b ∈ chainBlocks segs, V₁.blockBit b = true := by
      rw [hbits]
      exact hset
    have hlong₁ : Lengthens L V root segs V₁ root segs [] (chainBlocks segs) :=
      { Lengthens.refl hS hR [] with
        stream := hS₁, takes := htakes₁.mono (List.subset_append_right _ _) }
    by_cases hfit' : off + front.length + back.length ≤ capacity L segs
    · obtain ⟨V₂, hdoes₂, hS₂, htakes₂, hsplice₂⟩ :=
        hS₁.writeAt_within (D := D) hL htakes₁.ready (off + front.length) hback hfit'
      have hlong₂ : Lengthens L V₁ root segs V₂ root segs [] (chainBlocks segs) :=
        { Lengthens.refl hS₁ htakes₁.ready [] with
          stream := hS₂, takes := htakes₂.mono (List.subset_append_right _ _) }
      refine ⟨.ok back.length, segs, V₂, [], hdoes₁.bind hdoes₂,
        (hlong₁.trans hlong₂).mono (by simp), Or.inl ⟨rfl, ?_, hfit', Or.inl ⟨hfit', rfl, rfl⟩⟩⟩
      rw [hsplice₂, hsplice₁, splice_append]
    · rcases hS₁.writeAt_behind (D := D) hL htakes₁.ready hset₁ hnil (off + front.length)
        (Nat.not_le.mp hfit') (by omega) hfit with
        ⟨segs', V₂, taken, hdoes₂, hlong₂, hsplice₂, hcap, hplan⟩ | ⟨hdoes₂, hplan⟩
      · rw [hbits] at hplan
        refine ⟨.ok back.length, segs', V₂, [] ++ taken, hdoes₁.bind hdoes₂,
          (hlong₁.trans hlong₂).mono ?_,
          Or.inl ⟨rfl, ?_, by omega, Or.inr ⟨Nat.not_le.mp hfit', hplan⟩⟩⟩
        · exact List.append_subset.mpr
            ⟨fun b hb => hlong₂.perm.mem_iff.mpr (List.mem_append_right _ hb), List.Subset.refl _⟩
        · obtain ⟨more, hmore⟩ := hlong₂.datas
          have hsplice : streamAt L V₁ (dataBlocks segs') =
              splice (streamAt L V (dataBlocks segs')) off front := by
            rw [← hmore]
            refine streamAt_splice_append hs hsplice₁ hfit ?_ ?_
            · intro b hb
              exact hlong₁.takes.block b (hlong₂.notMem_of_more hmore hb)
            · exact hlong₁.takes.block 0
                (fun hmem => (hS₁.chain.isData 0 hmem).ne_zero hL rfl)
          rw [hsplice₂, hsplice, splice_append]
      · rw [hbits] at hplan
        refine ⟨.error .NdiskFull, segs, V₁, [], hdoes₁.bind hdoes₂, hlong₁,
          Or.inr ⟨rfl, rfl, rfl, ?_, Nat.not_le.mp hfit', hplan⟩⟩
        intro o ho
        rw [hsplice₁, splice_of_lt _ _ ho]
  · -- the first write takes the block behind the stream, which holds the second one as well
    rcases hS.writeAt_behind (D := D) hL hR hset hnil off (Nat.not_le.mp hfit) (by omega) hoff with
      ⟨segs', V₁, taken, hdoes₁, hlong₁, hsplice₁, hcap, hplan⟩ | ⟨hdoes₁, hplan⟩
    · obtain ⟨V₂, hdoes₂, hS₂, htakes₂, hsplice₂⟩ := hlong₁.stream.writeAt_within (D := D) hL
        hlong₁.takes.ready (off + front.length) hback (by omega)
      have hlong₂ : Lengthens L V root segs V₂ root segs' taken (chainBlocks segs') := by
        have htakes := hlong₁.takes.trans htakes₂
        rw [List.append_nil] at htakes
        refine { hlong₁ with stream := hS₂, takes := htakes.mono ?_ }
        exact List.append_subset.mpr ⟨List.Subset.refl _, List.subset_append_right _ _⟩
      refine ⟨.ok back.length, segs', V₂, taken, hdoes₁.bind hdoes₂, hlong₂,
        Or.inl ⟨rfl, ?_, by omega, Or.inr ⟨by omega, hplan⟩⟩⟩
      rw [hsplice₂, hsplice₁, splice_append]
    · exact ⟨.error .NdiskFull, segs, V, [], hdoes₁.bind (Does.pure _), Lengthens.refl hS hR _,
        Or.inr ⟨rfl, rfl, rfl, fun _ _ => rfl, by omega, hplan⟩⟩

/-- What an insertion into a table comes to. -/
structure Inserted (L : Layout) (V : View) (dir : Inode) (segs : List Segment)
    (buckets : Nat → List Record) (r : Record) (res : Except Nstatus Unit) (dir' : Inode)
    (V' : View) (segs' : List Segment) (buckets' : Nat → List Record) (free' : Nat)
    (taken : List Nat) : Prop where
  holds : Dir L V' dir.dirHashRoot segs' buckets' free'
  long : Lengthens L V dir.dirHashRoot segs V' dir.dirHashRoot segs' taken (chainBlocks segs')
  outcome :
    (res = .ok () ∧ dir' = { dir with dirEntryCount := (entries buckets).length + 1 } ∧
      buckets' = Function.update buckets (nyfsHashName r.name % nyfsDirhashDefaultBuckets)
        (r :: buckets (nyfsHashName r.name % nyfsDirhashDefaultBuckets)) ∧
      free' = r.offset + recordSize r.name.length ∧
      (r.stop ≤ capacity L segs ∧ segs' = segs ∧ taken = [] ∨
        capacity L segs < r.stop ∧ planOne L V.blockBit (tailOf segs) ≠ none)) ∨
    (res = .error .NdiskFull ∧ dir' = dir ∧ buckets' = buckets ∧ segs' = segs ∧
      free' = r.offset ∧ taken = [] ∧ capacity L segs < r.stop ∧ planOne L V.blockBit (tailOf segs) = none)

/-- The writes of an insertion add the record, or stop and leave the table alone. -/
theorem Dir.insertAt {dir : Inode} (h : Dir L V dir.dirHashRoot segs buckets free)
    (hR : Ready L V) (hset : ∀ b ∈ chainBlocks segs, V.blockBit b = true) {name : List UInt8}
    (hname : NameOk name) (hfresh : recordOf buckets name = none) {ino type : Nat}
    (hino : ino < 2 ^ 64) (htype : type < 256) :
    ∃ res dir' segs' buckets' free' V' taken,
      Does L V (dirhashInsertAt dir name ino type (tableHeader (entries buckets).length free)
        (linkOf (buckets (nyfsHashName name % nyfsDirhashDefaultBuckets))) : NyfsM D _)
        (.ok (res, dir')) V' ∧
      Inserted L V dir segs buckets ⟨free, name, ino, type⟩ res dir' V' segs' buckets' free'
        taken := by
  have hs : 0 < L.blockSize := by
    have := hL.blockSize_ge
    omega
  have hfree := h.free_lt hL
  have hfirst := hL.firstData_bytes
  have hlen : name.length ≤ 255 := hname.le
  have hcount := h.table.length_entries_le
  have hb : nyfsHashName name % nyfsDirhashDefaultBuckets < 16 := Nat.mod_lt _ (by decide)
  have htypemod : type % 256 = type := Nat.mod_eq_of_lt htype
  have hnamemod : (free + 24) % 2 ^ 64 = free + 24 := Nat.mod_eq_of_lt (by omega)
  -- the record and its name
  obtain ⟨res, segs₂, V₂, taken, hdoes, hlong, hres⟩ :=
    h.stream.writePair (D := D) hL hR hset h.nonempty free (encodeDirent_ne_nil
      ⟨ino, linkOf (buckets (nyfsHashName name % nyfsDirhashDefaultBuckets)), nyfsHashName name,
        name.length, type, 0⟩) (List.ne_nil_of_length_pos hname.pos) h.free_le
      (by rw [length_encodeDirent]; have := hL.blockSize_ge; omega)
  rw [length_encodeDirent] at hdoes hres
  rcases hres with ⟨rfl, hsplice₂, hle₂, hroom⟩ | ⟨rfl, rfl, rfl, hstream, hlt, hplan⟩
  swap
  · refine ⟨.error .NdiskFull, dir, segs₂, buckets, free, V₂, [], ?_, h.keep hlong hstream, hlong,
      Or.inr ⟨rfl, rfl, rfl, rfl, rfl, rfl, hlt, hplan⟩⟩
    rw [dirhashInsertAt, htypemod]
    dsimp only [tableHeader]
    rw [hnamemod, ← Eff.bind_assoc_eq]
    exact hdoes.bind ((Does.pure _).bind ((Does.pure _).bind (Does.pure _)))
  have hfits := record_fits hL h.table.free_mod hle₂
  have hcap₂ := hlong.stream.capacity_lt hL
  -- the bucket and the header lie inside the stream
  have hge := h.table.free_ge
  obtain ⟨V₃, hdoes₃, hS₃, htakes₃, hsplice₃⟩ := hlong.stream.writeAt_within (D := D) hL
    hlong.takes.ready (bucketOffset (nyfsHashName name % nyfsDirhashDefaultBuckets))
    (leBytes_ne_nil free) (by rw [length_leBytes, bucketOffset]; omega)
  obtain ⟨V₄, hdoes₄, hS₄, htakes₄, hsplice₄⟩ := hS₃.writeAt_within (D := D) hL
    htakes₃.ready 0 (encodeDirhashHeader_ne_nil (tableHeader ((entries buckets).length + 1)
      (free + recordSize name.length))) (by rw [length_encodeDirhashHeader]; omega)
  have hlong₄ : Lengthens L V dir.dirHashRoot segs V₄ dir.dirHashRoot segs₂ taken
      (chainBlocks segs₂) := by
    have htakes := hlong.takes.trans (htakes₃.trans htakes₄)
    rw [List.append_nil, List.append_nil] at htakes
    refine { hlong with stream := hS₄, takes := htakes.mono ?_ }
    intro b hb
    simp only [List.mem_append, or_self] at hb
    rcases hb with hb | hb
    · exact hb
    · exact List.mem_append_right _ hb
  have hbytes : streamAt L V₄ (dataBlocks segs₂) =
      insertBytes (streamAt L V (dataBlocks segs₂)) ⟨free, name, ino, type⟩
        (linkOf (buckets (nyfsHashName name % nyfsDirhashDefaultBuckets)))
        ((entries buckets).length + 1) := by
    rw [hsplice₄, hsplice₃, hsplice₂, ← splice_append, length_encodeDirent]
    rfl
  have htable : Table (streamAt L V (dataBlocks segs₂)) buckets free := by
    obtain ⟨more', hmore'⟩ := hlong.datas
    refine h.table.congr (fun o ho => ?_)
    rw [← hmore']
    have hle := h.free_le
    exact streamAt_append_left V more' (by unfold capacity at hle; omega)
  have hfresh' : name ∉ (entries buckets).map Record.name := by
    intro hmem
    obtain ⟨r, hr, rfl⟩ := List.mem_map.mp hmem
    rw [h.table.recordOf_eq_some.mpr ⟨hr, rfl⟩] at hfresh
    cases hfresh
  have hnil₂ : segs₂ ≠ [] := by
    rintro rfl
    have hlists := hlong.lists
    rw [listBlocks, listBlocks, List.map_nil, List.prefix_nil, List.map_eq_nil_iff] at hlists
    exact h.nonempty hlists
  have hinserted := htable.insert (r := ⟨free, name, ino, type⟩) rfl hname.pos hname.le hino htype
    hfresh'
  rw [← hbytes] at hinserted
  refine ⟨.ok (), { dir with dirEntryCount := (entries buckets).length + 1 }, segs₂, _, _, V₄,
    taken, ?_, ⟨hS₄, hnil₂, hinserted, hfits⟩, hlong₄, Or.inl ⟨rfl, rfl, rfl, rfl, hroom⟩⟩
  rw [dirhashInsertAt, htypemod]
  dsimp only [tableHeader]
  rw [hnamemod, Nat.mod_eq_of_lt (show free + recordSize name.length < 2 ^ 64 by omega),
    Nat.mod_eq_of_lt (show (entries buckets).length + 1 < 2 ^ 64 by omega), ← Eff.bind_assoc_eq]
  exact hdoes.bind (hdoes₃.bind (hdoes₄.bind (Does.pure _)))

/-- An insertion of a new name adds a record, or fails and leaves the table alone. -/
theorem Dir.insert {dir : Inode} (h : Dir L V dir.dirHashRoot segs buckets free)
    (hR : Ready L V) (hset : ∀ b ∈ chainBlocks segs, V.blockBit b = true) {name : List UInt8}
    (hname : NameOk name) (hfresh : recordOf buckets name = none) {ino type : Nat}
    (hino : ino < 2 ^ 64) (htype : type < 256) :
    ∃ res dir' segs' buckets' free' V' taken,
      Does L V (dirhashInsert dir name ino type : NyfsM D _) (.ok (res, dir')) V' ∧
      Inserted L V dir segs buckets ⟨free, name, ino, type⟩ res dir' V' segs' buckets' free'
        taken := by
  obtain ⟨res, dir', segs', buckets', free', V', taken, hdoes, hinserted⟩ :=
    h.insertAt (D := D) hL hR hset hname hfresh hino htype
  refine ⟨res, dir', segs', buckets', free', V', taken, ?_, hinserted⟩
  have hroot : dir.dirHashRoot ≠ nyfsBlknoNone :=
    mt (h.stream.chain.root_eq_none hL).mp h.nonempty
  rw [dirhashInsert, if_neg hname.not_invalid, if_neg hroot]
  exact (Does.pure _).bind ((h.does_slot hL name).attempt_bind hdoes)

end Inserting

/-! ## Creating -/

/-- The bytes of the empty buckets. -/
def emptyBuckets : List UInt8 :=
  (List.replicate nyfsDirhashDefaultBuckets 0).flatMap (leBytes 8)

theorem length_emptyBuckets : emptyBuckets.length = 128 := by
  simp [emptyBuckets, nyfsDirhashDefaultBuckets]

/-- A part of what has been written is read back. -/
theorem bytesAt_splice_part {f : Nat → UInt8} (off i n : Nat) {bytes : List UInt8}
    (h : i + n ≤ bytes.length) :
    bytesAt (splice f off bytes) (off + i) n = (bytes.drop i).take n := by
  have hself := bytesAt_splice_self f off bytes
  have hdrop := congrArg (fun l => (l.drop i).take n) hself
  rw [drop_bytesAt _ _ (by omega), take_bytesAt _ _ (by omega)] at hdrop
  exact hdrop

/-- A fresh table. -/
theorem table_empty (f : Nat → UInt8) :
    Table (splice (splice f 0 (encodeDirhashHeader (tableHeader 0 160))) 32 emptyBuckets)
      (fun _ => []) 160 where
  header := by
    have hself := bytesAt_splice_self f 0 (encodeDirhashHeader (tableHeader 0 160))
    rw [length_encodeDirhashHeader] at hself
    rw [bytesAt_splice_of_disjoint _ (Or.inl (by decide : 0 + 32 ≤ 32)), hself]
    rfl
  head b hb := by
    have hb' : b < 16 := hb
    rw [bucketOffset, bytesAt_splice_part 32 (b * 8) 8 (by rw [length_emptyBuckets]; omega)]
    interval_cases b <;> decide
  linked _ _ := trivial
  hash b _ r hr := by cases hr
  valid r hr := by
    obtain ⟨_, _, hmem⟩ := mem_entries.mp hr
    cases hmem
  apart := List.Pairwise.nil
  names := List.nodup_nil
  free_ge := le_rfl
  free_mod := rfl

section Creating

variable (hL : L.Valid)

include hL

/-- Creating a table makes an empty one, or the disk is full and nothing changes. -/
theorem Ready.dirhashCreate (hR : Ready L V) (dir : Inode) :
    ∃ res dir' segs' V' taken,
      Does L V (dirhashCreate dir : NyfsM D _) (.ok (res, dir')) V' ∧
      Lengthens L V nyfsBlknoNone [] V' dir'.dirHashRoot segs' taken (chainBlocks segs') ∧
      ((res = .ok () ∧ dir' = { dir with dirHashRoot := dir'.dirHashRoot, dirEntryCount := 0 } ∧
          Dir L V' dir'.dirHashRoot segs' (fun _ => []) 160 ∧
          ∃ d ls t, planOne L V.blockBit none = some (d, ls, t) ∧ dataBlocks segs' = [d] ∧
            taken = d :: ls) ∨
        (res = .error .NdiskFull ∧ V' = V ∧ planOne L V.blockBit none = none)) := by
  have hsize := hL.blockSize_ge
  have hstream : Stream L V nyfsBlknoNone [] := Stream.nil
  obtain ⟨res₁, root₁, segs₁, V₁, taken, k, hdoes₁, hlong₁, hsplice₁, hres₁⟩ :=
    hstream.writeAt (D := D) hL hR (by intro b hb; cases hb) 0
      (encodeDirhashHeader (tableHeader 0 160))
  have hne : encodeDirhashHeader (tableHeader 0 160) ≠ [] := encodeDirhashHeader_ne_nil _
  have hneed : growthNeed L [] 0 (encodeDirhashHeader (tableHeader 0 160)).length = 1 := by
    have hcap : capacity L [] = 0 := Nat.zero_mul _
    have hle := hL.blockSize_le
    rw [length_encodeDirhashHeader]
    exact growthNeed_eq_one (by omega) (by omega) (by omega) (by omega)
  rcases hres₁ with ⟨ds, hplan, hdata, htaken, hall, hle⟩ | ⟨-, hplan, -, hsame, -⟩ |
    ⟨ds, -, -, -, -, hwrap⟩
  rotate_left
  · rw [hneed, planMany_one, Option.map_eq_none_iff] at hplan
    obtain ⟨rfl, -, rfl⟩ := hsame hplan
    exact ⟨.error .NdiskFull, { dir with dirHashRoot := root₁ }, [], V₁, taken,
      hdoes₁.bind ((Does.pure _).bind (Does.pure _)), hlong₁, Or.inr ⟨rfl, rfl, hplan⟩⟩
  · rw [length_encodeDirhashHeader] at hwrap
    have := hL.blockSize_le
    omega
  rw [if_neg hne, hneed, planMany_one] at hplan
  obtain ⟨⟨d, ls, t⟩, hone, rfl⟩ := Option.map_eq_some_iff.mp hplan
  have hle := hle hne
  rw [length_encodeDirhashHeader] at hle
  have hblocks : 1 ≤ (dataBlocks segs₁).length := by
    by_contra hzero
    unfold capacity at hle
    rw [show (dataBlocks segs₁).length = 0 by omega, Nat.zero_mul] at hle
    omega
  have hcap : 512 ≤ capacity L segs₁ :=
    hsize.trans (Nat.le_mul_of_pos_left _ hblocks)
  obtain ⟨V₂, hdoes₂, hS₂, htakes₂, hsplice₂⟩ := hlong₁.stream.writeAt_within (D := D) hL
    hlong₁.takes.ready 32 (by decide : emptyBuckets ≠ []) (by rw [length_emptyBuckets]; omega)
  refine ⟨.ok (), { dir with dirHashRoot := root₁, dirEntryCount := 0 }, segs₁, V₂, taken, ?_, ?_,
    Or.inl ⟨rfl, rfl, ⟨hS₂, ?_, ?_, by omega⟩, d, ls, t, hone, hdata, ?_⟩⟩
  · exact hdoes₁.bind (hdoes₂.bind (Does.pure _))
  · have htakes := hlong₁.takes.trans htakes₂
    rw [List.append_nil] at htakes
    refine { hlong₁ with stream := hS₂, takes := htakes.mono ?_ }
    exact List.append_subset.mpr ⟨List.Subset.refl _, List.subset_append_right _ _⟩
  · rintro rfl
    cases hdata
  · rw [hsplice₂, hsplice₁, hall]
    exact table_empty _
  · rw [htaken, planned, List.flatMap_singleton]

end Creating

/-! ## Removing -/

/-- The offset of the last of the given records, or the given one. -/
def lastOffset (prev : Nat) (pre : List Record) : Nat :=
  match pre.getLast? with
  | none => prev
  | some p => p.offset

theorem findLink_append {pre post : List Record} {r : Record} (prev : Nat)
    (hpre : ∀ s ∈ pre, s.name ≠ r.name) :
    findLink r.name prev (pre ++ r :: post) =
      some (lastOffset prev pre, r.dirent (linkOf post)) := by
  induction pre generalizing prev with
  | nil => simp [findLink, lastOffset]
  | cons s pre ih =>
      have hs := hpre s (List.mem_cons_self ..)
      rw [List.cons_append, findLink, if_neg hs,
        ih s.offset (fun t ht => hpre t (List.mem_cons_of_mem _ ht))]
      have hlast : lastOffset s.offset pre = lastOffset prev (s :: pre) := by
        rcases List.eq_nil_or_concat' pre with rfl | ⟨xs, p, rfl⟩
        · rfl
        · have hshort : lastOffset s.offset (xs ++ [p]) = p.offset := by
            simp only [lastOffset, List.getLast?_concat]
          have hlong : lastOffset prev ((s :: xs) ++ [p]) = p.offset := by
            simp only [lastOffset, List.getLast?_concat]
          exact hshort.trans hlong.symm
      rw [hlast]

theorem findLink_none {name : List UInt8} {rs : List Record} (prev : Nat)
    (h : ∀ r ∈ rs, r.name ≠ name) : findLink name prev rs = none := by
  induction rs generalizing prev with
  | nil => rfl
  | cons r rs ih =>
      rw [findLink, if_neg (h r (List.mem_cons_self ..)),
        ih r.offset (fun s hs => h s (List.mem_cons_of_mem _ hs))]

/-- The place of a record in its bucket. -/
theorem Table.bucket_split {f : Nat → UInt8} (h : Table f buckets free) {r : Record}
    (hr : r ∈ entries buckets) :
    ∃ pre post, buckets (nyfsHashName r.name % nyfsDirhashDefaultBuckets) = pre ++ r :: post ∧
      ∀ s ∈ pre, s.name ≠ r.name := by
  obtain ⟨b, hb, hmem⟩ := mem_entries.mp hr
  have hhash := h.hash b hb r hmem
  obtain ⟨pre, post, hsplit⟩ := List.append_of_mem hmem
  refine ⟨pre, post, by rw [hhash, hsplit], ?_⟩
  have hnames := h.bucket_names hb
  rw [hsplit, List.map_append, List.map_cons] at hnames
  intro s hs heq
  exact (List.nodup_append.mp hnames).2.2 s.name (List.mem_map_of_mem hs) r.name
    (List.mem_cons_self ..) heq

section Removing

variable (hL : L.Valid)

include hL

/-- A removal of an absent name changes nothing. -/
theorem Dir.remove_absent {dir : Inode} (h : Dir L V dir.dirHashRoot segs buckets free)
    {name : List UInt8} (hname : NameOk name) (habsent : recordOf buckets name = none) :
    Does L V (dirhashRemove dir name : NyfsM D _) (.ok (.error .NnotFound, dir)) V := by
  have hroot : dir.dirHashRoot ≠ nyfsBlknoNone :=
    mt (h.stream.chain.root_eq_none hL).mp h.nonempty
  rw [dirhashRemove, if_neg hroot, if_neg hname.not_invalid]
  refine (h.does_slot hL name).attempt_bind ?_
  have hfind := h.does_findBucket (D := D) hL name
  rw [findLink_none] at hfind
  · exact hfind.attempt_bind_error (Does.pure _)
  · rw [h.table.recordOf_eq_bucket, List.find?_eq_none] at habsent
    simpa using habsent

/-- A removal takes the record of a name out of the table. -/
theorem Dir.remove {dir : Inode} (h : Dir L V dir.dirHashRoot segs buckets free) (hR : Ready L V)
    {name : List UInt8} (hname : NameOk name) {r : Record} (hr : recordOf buckets name = some r) :
    ∃ pre post V', buckets (nyfsHashName name % nyfsDirhashDefaultBuckets) = pre ++ r :: post ∧
      Does L V (dirhashRemove dir name : NyfsM D _)
        (.ok (.ok (), { dir with dirEntryCount := (entries buckets).length - 1 })) V' ∧
      Dir L V' dir.dirHashRoot segs
        (Function.update buckets (nyfsHashName name % nyfsDirhashDefaultBuckets) (pre ++ post))
        free ∧
      Takes L V V' [] (dataBlocks segs) := by
  obtain ⟨hmem, rfl⟩ := h.table.recordOf_eq_some.mp hr
  obtain ⟨pre, post, hbucket, hpre⟩ := h.table.bucket_split hmem
  have hb : nyfsHashName r.name % nyfsDirhashDefaultBuckets < nyfsDirhashDefaultBuckets :=
    Nat.mod_lt _ (by decide)
  have hb' : nyfsHashName r.name % nyfsDirhashDefaultBuckets < 16 := hb
  have hroot : dir.dirHashRoot ≠ nyfsBlknoNone :=
    mt (h.stream.chain.root_eq_none hL).mp h.nonempty
  have hfree := h.free_lt hL
  have hge := h.table.free_ge
  have hle := h.free_le
  have hfirst := hL.firstData_bytes
  have hcount := h.table.length_entries_le
  have hpos : 0 < (entries buckets).length := List.length_pos_of_mem hmem
  have hplace : (if lastOffset 0 pre = 0 then
        bucketOffset (nyfsHashName r.name % nyfsDirhashDefaultBuckets)
      else (lastOffset 0 pre + 8) % 2 ^ 64) =
        linkPlace (nyfsHashName r.name % nyfsDirhashDefaultBuckets) pre ∧
      linkPlace (nyfsHashName r.name % nyfsDirhashDefaultBuckets) pre + 8 ≤ free := by
    rcases List.eq_nil_or_concat' pre with rfl | ⟨xs, p, rfl⟩
    · refine ⟨rfl, ?_⟩
      simp only [linkPlace, List.getLast?_nil, bucketOffset]
      omega
    · have hp : p ∈ entries buckets := mem_entries.mpr ⟨_, hb, by rw [hbucket]; simp⟩
      have hvalid := h.table.valid p hp
      have hoff := hvalid.offset_ge
      have hstop := hvalid.stop_le
      unfold Record.stop at hstop
      have hlast : lastOffset 0 (xs ++ [p]) = p.offset := by simp [lastOffset]
      have hlink : linkPlace (nyfsHashName r.name % nyfsDirhashDefaultBuckets) (xs ++ [p]) =
          p.offset + 8 := by simp [linkPlace]
      rw [hlast, hlink, if_neg (by omega), Nat.mod_eq_of_lt (by omega)]
      exact ⟨rfl, by omega⟩
  obtain ⟨V₁, hdoes₁, hS₁, htakes₁, hsplice₁⟩ := h.stream.writeAt_within (D := D) hL hR
    (linkPlace (nyfsHashName r.name % nyfsDirhashDefaultBuckets) pre)
    (leBytes_ne_nil (linkOf post)) (by rw [length_leBytes]; omega)
  obtain ⟨V₂, hdoes₂, hS₂, htakes₂, hsplice₂⟩ := hS₁.writeAt_within (D := D) hL htakes₁.ready 0
    (encodeDirhashHeader_ne_nil (tableHeader ((entries buckets).length - 1) free))
    (by rw [length_encodeDirhashHeader]; omega)
  have hremoved := h.table.remove hb hbucket
  have hbytes : streamAt L V₂ (dataBlocks segs) =
      removeBytes (streamAt L V (dataBlocks segs))
        (linkPlace (nyfsHashName r.name % nyfsDirhashDefaultBuckets) pre) (linkOf post)
        ((entries buckets).length - 1) free := by
    rw [hsplice₂, hsplice₁]
    rfl
  rw [← hbytes] at hremoved
  refine ⟨pre, post, V₂, hbucket, ?_, ⟨hS₂, h.nonempty, hremoved, hle⟩, ?_⟩
  · rw [dirhashRemove, if_neg hroot, if_neg hname.not_invalid]
    refine (h.does_slot hL r.name).attempt_bind ?_
    have hfind := h.does_findBucket (D := D) hL r.name
    rw [hbucket, findLink_append 0 hpre] at hfind
    rw [hbucket]
    refine hfind.attempt_bind ?_
    dsimp only [tableHeader, Record.dirent]
    rw [dirhashUnlink, hplace.1]
    have hpred : ((entries buckets).length + (2 ^ 64 - 1)) % 2 ^ 64 =
        (entries buckets).length - 1 := by omega
    rw [hpred]
    exact hdoes₁.bind (hdoes₂.bind (Does.pure _))
  · have htakes := htakes₁.trans htakes₂
    exact htakes.mono (List.append_subset.mpr ⟨List.Subset.refl _, List.Subset.refl _⟩)

/-! ## Listing -/

/-- What a listing shows of a record. -/
def Record.view (nameLimit : Nat) (r : Record) : DirentView :=
  ⟨r.name.take nameLimit, r.ino, r.type⟩

theorem Dir.does_readdirBucket (h : Dir L V root segs buckets free) (index nameLimit : Nat)
    {rs : List Record} {fuel seen : Nat} (hfuel : rs.length < fuel)
    (hrs : ∀ r ∈ rs, r ∈ entries buckets)
    (hlinked : Linked (streamAt L V (dataBlocks segs)) rs) (hseen : seen ≤ index)
    (hlt : seen + rs.length < 2 ^ 64) :
    Does L V (readdirBucket root index nameLimit fuel (linkOf rs) seen : NyfsM D _)
      (.ok (match rs[index - seen]? with
        | some r => .inl (r.view nameLimit)
        | none => .inr (seen + rs.length))) V := by
  induction rs generalizing fuel seen with
  | nil =>
      obtain ⟨fuel, rfl⟩ := Nat.exists_eq_add_one_of_ne_zero (Nat.ne_of_gt hfuel)
      rw [readdirBucket, if_pos (by rfl : linkOf [] = 0)]
      exact Does.pure _
  | cons r rs ih =>
      obtain ⟨fuel, rfl⟩ := Nat.exists_eq_add_one_of_ne_zero (Nat.ne_zero_of_lt hfuel)
      have hr := hrs r (List.mem_cons_self ..)
      have hrest : ∀ s ∈ rs, s ∈ entries buckets := fun s hs => hrs s (List.mem_cons_of_mem _ hs)
      have hvalid := h.table.valid r hr
      have hstop := hvalid.stop_le
      have hoff := hvalid.offset_ge
      have hle := h.free_le
      have hfree := h.free_lt hL
      unfold Record.stop at hstop
      rw [List.length_cons] at hlt hfuel
      rw [readdirBucket, if_neg (by simp only [linkOf]; omega)]
      refine (h.does_readDirent hL hr hlinked.1 (h.link_lt hL hrest)).bind ?_
      by_cases hidx : seen = index
      · subst hidx
        have hread := h.readAt (D := D) hL (r.offset + 24) (min r.name.length nameLimit) (by omega)
        have hname : bytesAt (streamAt L V (dataBlocks segs)) (r.offset + 24)
            (min r.name.length nameLimit) = r.name.take nameLimit := by
          rw [← take_bytesAt _ _ (Nat.min_le_left r.name.length nameLimit), hlinked.1.name,
            Nat.min_comm, ← List.take_take, List.take_length]
        rw [hname] at hread
        rw [if_pos rfl, Nat.sub_self, List.getElem?_cons_zero]
        simp only [linkOf, Record.dirent]
        rw [Nat.mod_eq_of_lt (by omega)]
        exact hread.bind (Does.pure _)
      · rw [if_neg hidx, Nat.mod_eq_of_lt (by omega),
          show index - seen = index - (seen + 1) + 1 by omega, List.getElem?_cons_succ,
          List.length_cons, show seen + (rs.length + 1) = seen + 1 + rs.length by omega]
        exact ih (by omega) hrest hlinked.2 (by omega) (by omega)

theorem Dir.does_readdirBuckets (h : Dir L V root segs buckets free) (index nameLimit : Nat)
    {count b seen : Nat} (hb : b + count = nyfsDirhashDefaultBuckets) (hseen : seen ≤ index)
    (hlt : seen + ((List.range' b count).flatMap buckets).length < 2 ^ 64) :
    Does L V (readdirBuckets root index nameLimit count b seen : NyfsM D _)
      (foundOr ((((List.range' b count).flatMap buckets)[index - seen]?).map
        (Record.view nameLimit))) V := by
  induction count generalizing b seen with
  | zero => exact Does.fail _
  | succ n ih =>
      have hb' : b < nyfsDirhashDefaultBuckets := by omega
      rw [List.range'_succ, List.flatMap_cons, List.length_append] at hlt
      rw [readdirBuckets, List.range'_succ, List.flatMap_cons]
      refine (h.does_bucketHead hL hb').bind ?_
      have hbucket := h.does_readdirBucket (D := D) hL index nameLimit
        (h.bucket_length_lt hL hb') (fun r hr => mem_entries.mpr ⟨b, hb', hr⟩)
        (h.table.linked b hb') hseen (by omega)
      by_cases hin : index - seen < (buckets b).length
      · rw [List.getElem?_append_left hin, List.getElem?_eq_getElem hin] at *
        exact hbucket.bind (Does.pure _)
      · rw [List.getElem?_eq_none (by omega)] at hbucket
        refine hbucket.bind ?_
        rw [List.getElem?_append_right (by omega), Nat.sub_sub]
        exact ih (by omega) (by omega) (by omega)

/-- Listing numbers the records in the order of the buckets. -/
theorem Dir.readdir {dir : Inode} (h : Dir L V dir.dirHashRoot segs buckets free)
    (index nameLimit : Nat) :
    Does L V (dirhashReaddir dir index nameLimit : NyfsM D _)
      (foundOr (((entries buckets)[index]?).map (Record.view nameLimit))) V := by
  have hroot : dir.dirHashRoot ≠ nyfsBlknoNone :=
    mt (h.stream.chain.root_eq_none hL).mp h.nonempty
  have hfree := h.free_lt hL
  have hfirst := hL.firstData_bytes
  have hcount := h.table.length_entries_le
  rw [dirhashReaddir, if_neg hroot]
  refine (h.does_header hL).bind ?_
  have hentries : entries buckets =
      (List.range' 0 nyfsDirhashDefaultBuckets).flatMap buckets := by
    rw [← List.range_eq_range']
    rfl
  have hall := h.does_readdirBuckets (D := D) hL index nameLimit
    (Nat.zero_add nyfsDirhashDefaultBuckets) (Nat.zero_le index) (by rw [← hentries]; omega)
  rw [← hentries, Nat.sub_zero] at hall
  exact hall

end Removing

end Nyfs
end Nyxis
