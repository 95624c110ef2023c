import Nyxis.Nyfs.Allocation
import Nyxis.Nyfs.Extent

/-!
# Streams on a volume

A chain of extent-list blocks stands for the list of data blocks its extents cover, and the
blocks one behind the other are a byte map.  This module reads chains: resolving a logical
block, counting the blocks and reading bytes.

Main results:

- Definition {lit}`Stream`: a chain whose list and data blocks are all different.
- Theorems {lit}`Stream.resolve` and {lit}`Stream.totalBlocks`.
- Theorem {lit}`Stream.readAt`: reading returns the bytes of the stream, cut at its end.
-/

namespace Nyxis
namespace Nyfs

variable {D : Type} [ReliableDevice D] {L : Layout} {V V' : View}

/-! ## Chains -/

/-- The blocks that an extent covers. -/
def Extent.blocks (e : Extent) : List Nat :=
  List.range' e.startBlock e.length

/-- An extent of data blocks. -/
structure Extent.Valid (L : Layout) (e : Extent) : Prop where
  pos : 0 < e.length
  ge : L.firstDataBlock ≤ e.startBlock
  le : e.startBlock + e.length ≤ L.totalBlocks

/-- A list block of a chain with the extents it holds. -/
structure Segment where
  block : Nat
  extents : List Extent

/-- The blocks that a list of extents covers, in order. -/
def coveredBlocks (extents : List Extent) : List Nat :=
  extents.flatMap Extent.blocks

/-- The list blocks of a chain. -/
def listBlocks (segs : List Segment) : List Nat :=
  segs.map Segment.block

/-- The data blocks of a chain, in order. -/
def dataBlocks (segs : List Segment) : List Nat :=
  segs.flatMap (fun s => coveredBlocks s.extents)

/-- All blocks of a chain. -/
def chainBlocks (segs : List Segment) : List Nat :=
  listBlocks segs ++ dataBlocks segs

/-- A block that holds a header and the given extents. -/
structure ListBlock (L : Layout) (V : View) (b : Nat) (extents : List Extent) (next : Nat) :
    Prop where
  isData : L.IsData b
  nonempty : extents ≠ []
  count_le : extents.length ≤ nyfsMaxExtentsPerBlock
  fits : 16 + extents.length * 16 ≤ L.blockSize
  header : bytesAt (V.block b) 0 16 =
    encodeExtentHeader ⟨nyfsExtentMagic, extents.length, next⟩
  content : bytesAt (V.block b) 16 (extents.length * 16) = extents.flatMap encodeExtent
  valid : ∀ e ∈ extents, e.Valid L

/-- The chain of list blocks from a root. -/
inductive Chain (L : Layout) (V : View) : Nat → List Segment → Prop
  | nil : Chain L V nyfsBlknoNone []
  | cons {b next : Nat} {extents : List Extent} {rest : List Segment}
      (hblock : ListBlock L V b extents next) (hrest : Chain L V next rest) :
      Chain L V b (⟨b, extents⟩ :: rest)

/-- A chain whose blocks are all different. -/
structure Stream (L : Layout) (V : View) (root : Nat) (segs : List Segment) : Prop where
  chain : Chain L V root segs
  nodup : (chainBlocks segs).Nodup

/-- The bytes of a list of blocks one behind the other. -/
def streamAt (L : Layout) (V : View) (blocks : List Nat) (o : Nat) : UInt8 :=
  V.block (blocks.getD (o / L.blockSize) 0) (o % L.blockSize)

/-- The number of bytes of a list of blocks. -/
def capacity (L : Layout) (segs : List Segment) : Nat :=
  (dataBlocks segs).length * L.blockSize

/-! ## Basic facts -/

theorem coveredBlocks_cons (e : Extent) (es : List Extent) :
    coveredBlocks (e :: es) = e.blocks ++ coveredBlocks es :=
  List.flatMap_cons

theorem coveredBlocks_append (es fs : List Extent) :
    coveredBlocks (es ++ fs) = coveredBlocks es ++ coveredBlocks fs :=
  List.flatMap_append

theorem dataBlocks_cons (s : Segment) (segs : List Segment) :
    dataBlocks (s :: segs) = coveredBlocks s.extents ++ dataBlocks segs :=
  List.flatMap_cons

theorem dataBlocks_append (segs segs' : List Segment) :
    dataBlocks (segs ++ segs') = dataBlocks segs ++ dataBlocks segs' :=
  List.flatMap_append

theorem listBlocks_append (segs segs' : List Segment) :
    listBlocks (segs ++ segs') = listBlocks segs ++ listBlocks segs' :=
  List.map_append

@[simp]
theorem Extent.length_blocks (e : Extent) : e.blocks.length = e.length :=
  List.length_range'

theorem mem_coveredBlocks_isData {extents : List Extent} (hvalid : ∀ e ∈ extents, e.Valid L)
    {b : Nat} (hb : b ∈ coveredBlocks extents) : L.IsData b := by
  obtain ⟨e, he, hmem⟩ := List.mem_flatMap.mp hb
  have hv := hvalid e he
  rw [Extent.blocks, List.mem_range'_1] at hmem
  have := hv.ge
  have := hv.le
  exact ⟨by omega, by omega⟩

theorem Chain.isData {root : Nat} {segs : List Segment} (h : Chain L V root segs) :
    ∀ b ∈ chainBlocks segs, L.IsData b := by
  induction h with
  | nil =>
      intro b hb
      cases hb
  | @cons b next extents rest hblock _ ih =>
      intro c hc
      rw [chainBlocks, dataBlocks_cons, listBlocks, List.map_cons] at hc
      rcases List.mem_append.mp hc with hc | hc
      · rcases List.mem_cons.mp hc with rfl | hc
        · exact hblock.isData
        · exact ih c (List.mem_append_left _ hc)
      · rcases List.mem_append.mp hc with hc | hc
        · exact mem_coveredBlocks_isData hblock.valid hc
        · exact ih c (List.mem_append_right _ hc)

/-- The root of a chain fits its field. -/
theorem Chain.root_lt {root : Nat} {segs : List Segment} (hL : L.Valid) (h : Chain L V root segs) :
    root < 2 ^ 64 := by
  have hlt := hL.totalBlocks_lt
  cases h with
  | nil => decide
  | cons hblock _ =>
      have := hblock.isData.lt
      omega

/-- Only the empty chain has no root. -/
theorem Chain.root_eq_none {root : Nat} {segs : List Segment} (hL : L.Valid)
    (h : Chain L V root segs) : root = nyfsBlknoNone ↔ segs = [] := by
  cases h with
  | nil => simp
  | cons hblock _ =>
      have hne := hblock.isData.ne_zero hL
      simp [nyfsBlknoNone, hne]

/-- A chain depends on its list blocks only. -/
theorem Chain.congr {root : Nat} {segs : List Segment} (h : Chain L V root segs)
    (heq : ∀ b ∈ listBlocks segs, V'.block b = V.block b) : Chain L V' root segs := by
  induction h with
  | nil => exact Chain.nil
  | @cons b next extents rest hblock _ ih =>
      have hb : V'.block b = V.block b := heq b (List.mem_cons_self ..)
      refine Chain.cons ⟨hblock.isData, hblock.nonempty, hblock.count_le, hblock.fits, ?_, ?_,
        hblock.valid⟩ (ih (fun c hc => heq c (List.mem_cons_of_mem _ hc)))
      · rw [hb]
        exact hblock.header
      · rw [hb]
        exact hblock.content

/-- The front of a chain can be continued with any other end. -/
theorem Chain.split {root : Nat} {front tail : List Segment} (h : Chain L V root (front ++ tail)) :
    ∃ mid, Chain L V mid tail ∧ ∀ (V' : View) (tail' : List Segment),
      (∀ b ∈ listBlocks front, V'.block b = V.block b) → Chain L V' mid tail' →
      Chain L V' root (front ++ tail') := by
  induction front generalizing root with
  | nil => exact ⟨root, h, fun V' tail' _ h' => h'⟩
  | cons s front ih =>
      cases h with
      | cons hblock hrest =>
          obtain ⟨mid, hmid, hcont⟩ := ih hrest
          refine ⟨mid, hmid, fun V' tail' heq h' => ?_⟩
          have hb : V'.block root = V.block root := heq root (List.mem_cons_self ..)
          refine Chain.cons ⟨hblock.isData, hblock.nonempty, hblock.count_le, hblock.fits, ?_, ?_,
            hblock.valid⟩ (hcont V' tail' (fun c hc => heq c (List.mem_cons_of_mem _ hc)) h')
          · rw [hb]
            exact hblock.header
          · rw [hb]
            exact hblock.content

/-- Different blocks below the end of the volume are no more than it has. -/
theorem length_le_of_nodup {blocks : List Nat} {n : Nat} (hnodup : blocks.Nodup)
    (hlt : ∀ b ∈ blocks, b < n) : blocks.length ≤ n := by
  have hsub : blocks ⊆ List.range n := fun b hb => List.mem_range.mpr (hlt b hb)
  have hle := (hnodup.subperm hsub).length_le
  rwa [List.length_range] at hle

theorem Stream.congr {root : Nat} {segs : List Segment} (h : Stream L V root segs)
    (heq : ∀ b ∈ listBlocks segs, V'.block b = V.block b) : Stream L V' root segs :=
  ⟨h.chain.congr heq, h.nodup⟩

/-- The stream of no blocks. -/
theorem Stream.nil : Stream L V nyfsBlknoNone [] :=
  ⟨Chain.nil, List.nodup_nil⟩

variable {root : Nat} {segs : List Segment}

theorem Stream.length_le (h : Stream L V root segs) :
    segs.length + (dataBlocks segs).length + L.firstDataBlock ≤ L.totalBlocks ∨
      chainBlocks segs = [] := by
  by_cases hnil : chainBlocks segs = []
  · exact Or.inr hnil
  · left
    obtain ⟨b, hb⟩ := List.exists_mem_of_ne_nil _ hnil
    have hdata := h.chain.isData b hb
    have hshift : ((chainBlocks segs).map (fun b => b - L.firstDataBlock)).Nodup := by
      refine List.Nodup.map_on (fun x hx y hy hxy => ?_) h.nodup
      have := (h.chain.isData x hx).ge
      have := (h.chain.isData y hy).ge
      omega
    have hle := length_le_of_nodup (n := L.totalBlocks - L.firstDataBlock) hshift (by
      intro c hc
      obtain ⟨x, hx, rfl⟩ := List.mem_map.mp hc
      have := h.chain.isData x hx
      have := this.ge
      have := (h.chain.isData x hx).lt
      omega)
    rw [List.length_map, chainBlocks, List.length_append, listBlocks, List.length_map] at hle
    have := hdata.ge
    have := hdata.lt
    omega

/-- A stream is shorter than the volume. -/
theorem Stream.lengths (hL : L.Valid) (h : Stream L V root segs) :
    segs.length < L.totalBlocks ∧ (dataBlocks segs).length + L.firstDataBlock ≤ L.totalBlocks := by
  have hfirst := hL.firstDataBlock_lt
  have hpos := hL.firstDataBlock_pos
  rcases h.length_le with hle | hnil
  · omega
  · have hlen : segs.length + (dataBlocks segs).length = 0 := by
      have := congrArg List.length hnil
      rwa [chainBlocks, List.length_append, listBlocks, List.length_map, List.length_nil] at this
    omega

/-! ## Reading list blocks -/

theorem Extent.Valid.fits {e : Extent} (hL : L.Valid) (h : e.Valid L) :
    e.startBlock < 2 ^ 64 ∧ e.length < 2 ^ 64 := by
  have := h.le
  have := hL.totalBlocks_lt
  omega

theorem decodeExtent_append {bytes : List UInt8} (hlen : bytes.length = 16) (rest : List UInt8) :
    decodeExtent (bytes ++ rest) = decodeExtent bytes := by
  rw [decodeExtent, decodeExtent, List.take_append_of_le_length (by omega),
    List.drop_append_of_le_length (by omega),
    List.take_append_of_le_length (by rw [List.length_drop]; omega)]

theorem decodeExtents_flatMap {extents : List Extent}
    (hfits : ∀ e ∈ extents, e.startBlock < 2 ^ 64 ∧ e.length < 2 ^ 64) :
    decodeExtents extents.length (extents.flatMap encodeExtent) = extents := by
  induction extents with
  | nil => rfl
  | cons e es ih =>
      obtain ⟨hstart, hlength⟩ := hfits e (List.mem_cons_self ..)
      have hrest := ih (fun f hf => hfits f (List.mem_cons_of_mem _ hf))
      rw [List.flatMap_cons, List.length_cons, decodeExtents,
        decodeExtent_append (length_encodeExtent e), decodeExtent_encode hstart hlength,
        List.drop_left' (length_encodeExtent e), hrest]

/-- The header of a list block. -/
theorem ListBlock.decode_header {b next : Nat} {extents : List Extent}
    (h : ListBlock L V b extents next) (hnext : next < 2 ^ 64) :
    decodeExtentHeader (bytesAt (V.block b) 0 16) = ⟨nyfsExtentMagic, extents.length, next⟩ := by
  rw [h.header]
  refine decodeExtentHeader_encode ?_ ?_ hnext
  · exact (by decide : nyfsExtentMagic < 2 ^ 32)
  · exact lt_of_le_of_lt h.count_le (by decide)

section Walks

variable (hL : L.Valid)

include hL

/-- The extents of a list block. -/
theorem ListBlock.decode_extents {b next : Nat} {extents : List Extent}
    (h : ListBlock L V b extents next) :
    decodeExtents extents.length (bytesAt (V.block b) 16 (extents.length * 16)) = extents := by
  rw [h.content]
  exact decodeExtents_flatMap (fun e he => (h.valid e he).fits hL)

/-- The bytes of the list blocks determine a chain. -/
theorem Chain.unique {root : Nat} {segs segs' : List Segment} (h : Chain L V root segs)
    (h' : Chain L V root segs') : segs = segs' := by
  induction h generalizing segs' with
  | nil =>
      cases h' with
      | nil => rfl
      | cons hblock _ => exact absurd rfl (hblock.isData.ne_zero hL)
  | @cons b next extents rest hblock hrest ih =>
      cases h' with
      | nil => exact absurd rfl (hblock.isData.ne_zero hL)
      | @cons _ next' extents' rest' hblock' hrest' =>
          have hheader := hblock.decode_header (hrest.root_lt hL)
          rw [hblock'.decode_header (hrest'.root_lt hL), ExtentHeader.mk.injEq] at hheader
          obtain ⟨-, hcount, rfl⟩ := hheader
          have hextents := hblock.decode_extents hL
          rw [← hcount, hblock'.decode_extents hL] at hextents
          rw [hextents, ih hrest']

theorem ListBlock.does_header {b next : Nat} {extents : List Extent}
    (h : ListBlock L V b extents next) (hnext : next < 2 ^ 64) :
    Does L V (extentHeader b : NyfsM D _) (.ok ⟨nyfsExtentMagic, extents.length, next⟩) V := by
  have hcount := h.count_le
  have hread : Does L V (rawRead (b * L.blockSize) 16 : NyfsM D _)
      (.ok (bytesAt (V.block b) 0 16)) V := by
    have := does_readBlock (D := D) (V := V) (o := 0) (n := 16) hL h.isData
      (by have := hL.blockSize_ge; omega) (by have := hL.blockSize_ge; omega)
    rwa [Nat.add_zero] at this
  refine Does.blockSize_bind (hread.bind ?_)
  rw [h.decode_header hnext, if_neg (by simpa using hcount)]
  exact Does.pure _

theorem ListBlock.does_extents {b next : Nat} {extents : List Extent}
    (h : ListBlock L V b extents next) :
    Does L V (readExtents b extents.length : NyfsM D _) (.ok extents) V := by
  have hpos : extents.length ≠ 0 := by
    rw [Ne, List.length_eq_zero_iff]
    exact h.nonempty
  have hfits := h.fits
  rw [readExtents, if_neg hpos]
  have hread := does_readBlock (D := D) (V := V) (o := 16) (n := extents.length * 16) hL h.isData
    (by omega) (by omega)
  refine Does.blockSize_bind (hread.bind ?_)
  rw [h.decode_extents hL]
  exact Does.pure _

/-! ## Resolving -/

/-- The outcome of {lit}`nyfs_extent_resolve`. -/
def resolved : Option Nat → Except Stop Nat
  | some b => .ok b
  | none => .error (.status .NnotFound)

omit hL in
theorem scanExtents_eq {n : Nat} {extents : List Extent} {base : Nat} (hbase : base ≤ n)
    (hlt : base + (coveredBlocks extents).length < 2 ^ 64)
    (hfits : ∀ e ∈ extents, e.startBlock + e.length < 2 ^ 64) :
    scanExtents n extents base =
      match (coveredBlocks extents)[n - base]? with
      | some b => .inl b
      | none => .inr (base + (coveredBlocks extents).length) := by
  induction extents generalizing base with
  | nil => rfl
  | cons e es ih =>
      rw [coveredBlocks_cons, List.length_append, Extent.length_blocks] at hlt ⊢
      have hmod : (base + e.length) % 2 ^ 64 = base + e.length := Nat.mod_eq_of_lt (by omega)
      rw [scanExtents, hmod]
      by_cases hin : n < base + e.length
      · have hfit := hfits e (List.mem_cons_self ..)
        have hget : (e.blocks ++ coveredBlocks es)[n - base]? = some (e.startBlock + (n - base)) := by
          rw [List.getElem?_append_left (by rw [Extent.length_blocks]; omega), Extent.blocks,
            List.getElem?_range' (by omega), Nat.one_mul]
        rw [if_pos ⟨hbase, hin⟩, hget, Nat.mod_eq_of_lt (by omega)]
      · have hget : (e.blocks ++ coveredBlocks es)[n - base]? =
            (coveredBlocks es)[n - (base + e.length)]? := by
          rw [List.getElem?_append_right (by rw [Extent.length_blocks]; omega),
            Extent.length_blocks, Nat.sub_sub]
        rw [if_neg (fun h => hin h.2), hget, ih (by omega) (by omega)
          (fun f hf => hfits f (List.mem_cons_of_mem _ hf)), Nat.add_assoc]

theorem Chain.does_resolveLoop {n fuel base : Nat} (h : Chain L V root segs)
    (hfuel : segs.length < fuel) (hbase : base ≤ n)
    (hlt : base + (dataBlocks segs).length < 2 ^ 64) :
    Does L V (extentResolveLoop n fuel root base : NyfsM D _)
      (resolved (dataBlocks segs)[n - base]?) V := by
  induction h generalizing fuel base with
  | nil =>
      obtain ⟨fuel, rfl⟩ := Nat.exists_eq_add_one_of_ne_zero (Nat.ne_of_gt hfuel)
      rw [extentResolveLoop, if_pos rfl]
      exact Does.fail _
  | @cons b next extents rest hblock hrest ih =>
      obtain ⟨fuel, rfl⟩ := Nat.exists_eq_add_one_of_ne_zero (Nat.ne_zero_of_lt hfuel)
      rw [dataBlocks_cons, List.length_append] at hlt
      have hne : b ≠ nyfsBlknoNone := hblock.isData.ne_zero hL
      have hfits : ∀ e ∈ extents, e.startBlock + e.length < 2 ^ 64 := by
        intro e he
        have := (hblock.valid e he).le
        have := hL.totalBlocks_lt
        omega
      rw [extentResolveLoop, if_neg hne]
      refine (hblock.does_header hL (hrest.root_lt hL)).bind ((hblock.does_extents hL).bind ?_)
      dsimp only at hlt
      rw [scanExtents_eq hbase (by omega) hfits, dataBlocks_cons]
      dsimp only
      by_cases hin : n - base < (coveredBlocks extents).length
      · rw [List.getElem?_append_left hin, List.getElem?_eq_getElem hin]
        exact Does.pure _
      · rw [List.getElem?_append_right (by omega), List.getElem?_eq_none (by omega)]
        rw [Nat.sub_sub]
        exact ih (by rw [List.length_cons] at hfuel; omega) (by omega) (by omega)

/-- Resolving a logical block finds it in the list of data blocks. -/
theorem Stream.resolve (h : Stream L V root segs) (n : Nat) :
    Does L V (extentResolve root n : NyfsM D _) (resolved (dataBlocks segs)[n]?) V := by
  obtain ⟨hsegs, hdata⟩ := h.lengths hL
  have hlt := hL.totalBlocks_lt
  exact h.chain.does_resolveLoop hL (by rw [linkFuel]; omega) (Nat.zero_le n) (by omega)

omit hL in
theorem foldl_lengths {extents : List Extent} {total : Nat}
    (hlt : total + (coveredBlocks extents).length < 2 ^ 64) :
    extents.foldl (fun n e => (n + e.length) % 2 ^ 64) total =
      total + (coveredBlocks extents).length := by
  induction extents generalizing total with
  | nil => rfl
  | cons e es ih =>
      rw [coveredBlocks_cons, List.length_append, Extent.length_blocks] at hlt ⊢
      rw [List.foldl_cons, Nat.mod_eq_of_lt (by omega), ih (by omega), Nat.add_assoc]

theorem Chain.does_totalLoop {fuel total : Nat} (h : Chain L V root segs)
    (hfuel : segs.length < fuel) (hlt : total + (dataBlocks segs).length < 2 ^ 64) :
    Does L V (extentTotalLoop fuel root total : NyfsM D _)
      (.ok (total + (dataBlocks segs).length)) V := by
  induction h generalizing fuel total with
  | nil =>
      obtain ⟨fuel, rfl⟩ := Nat.exists_eq_add_one_of_ne_zero (Nat.ne_of_gt hfuel)
      rw [extentTotalLoop, if_pos rfl]
      exact Does.pure _
  | @cons b next extents rest hblock hrest ih =>
      obtain ⟨fuel, rfl⟩ := Nat.exists_eq_add_one_of_ne_zero (Nat.ne_zero_of_lt hfuel)
      rw [dataBlocks_cons, List.length_append] at hlt
      have hne : b ≠ nyfsBlknoNone := hblock.isData.ne_zero hL
      rw [extentTotalLoop, if_neg hne]
      refine (hblock.does_header hL (hrest.root_lt hL)).bind ((hblock.does_extents hL).bind ?_)
      dsimp only at hlt
      rw [foldl_lengths (by omega), dataBlocks_cons, List.length_append, ← Nat.add_assoc]
      exact ih (by rw [List.length_cons] at hfuel; omega) (by omega)

theorem Stream.totalBlocks (h : Stream L V root segs) :
    Does L V (extentTotalBlocks root : NyfsM D _) (.ok (dataBlocks segs).length) V := by
  obtain ⟨hsegs, hdata⟩ := h.lengths hL
  have hlt := hL.totalBlocks_lt
  have hloop : Does L V (extentTotalLoop linkFuel root 0 : NyfsM D _)
      (.ok (0 + (dataBlocks segs).length)) V :=
    h.chain.does_totalLoop hL (by rw [linkFuel]; omega) (by omega)
  rwa [Nat.zero_add] at hloop

/-! ## Reading bytes -/

omit hL in
/-- Offsets inside one block of a stream. -/
theorem offset_div_mod {s i : Nat} (off : Nat) (hi : off % s + i < s) :
    (off + i) / s = off / s ∧ (off + i) % s = off % s + i := by
  have hdecomp := Nat.div_add_mod off s
  have hsum : off + i = (off % s + i) + s * (off / s) := by omega
  constructor
  · rw [hsum, Nat.add_mul_div_left _ _ (by omega), Nat.div_eq_of_lt hi, Nat.zero_add]
  · rw [hsum, Nat.add_mul_mod_self_left, Nat.mod_eq_of_lt hi]

omit hL in
theorem bytesAt_streamAt {blocks : List Nat} {off b n : Nat}
    (hb : blocks[off / L.blockSize]? = some b) (hn : off % L.blockSize + n ≤ L.blockSize) :
    bytesAt (streamAt L V blocks) off n = bytesAt (V.block b) (off % L.blockSize) n := by
  refine List.map_congr_left (fun i hi => ?_)
  rw [List.mem_range] at hi
  obtain ⟨hdiv, hmod⟩ := offset_div_mod (s := L.blockSize) (i := i) off (by omega)
  rw [streamAt, hdiv, hmod, List.getD_eq_getElem?_getD, hb]
  rfl

omit hL in
/-- A block inside a stream ends inside its capacity. -/
theorem block_end_le_capacity {off : Nat} (hs : 0 < L.blockSize)
    (hin : off / L.blockSize < (dataBlocks segs).length) :
    off + (L.blockSize - off % L.blockSize) ≤ capacity L segs := by
  have hle : (off / L.blockSize + 1) * L.blockSize ≤ capacity L segs :=
    Nat.mul_le_mul_right _ hin
  rw [Nat.add_mul, Nat.one_mul, Nat.mul_comm] at hle
  have := Nat.div_add_mod off L.blockSize
  have := Nat.mod_lt off hs
  omega

omit hL in
theorem capacity_le_of_ge {off : Nat}
    (hout : (dataBlocks segs).length ≤ off / L.blockSize) : capacity L segs ≤ off := by
  have hle : capacity L segs ≤ off / L.blockSize * L.blockSize := Nat.mul_le_mul_right _ hout
  exact hle.trans (Nat.div_mul_le_self off L.blockSize)

/-- A stream ends before the metadata's worth of the 64-bit offsets. -/
theorem Stream.capacity_lt (h : Stream L V root segs) :
    capacity L segs + L.firstDataBlock * L.blockSize < 2 ^ 64 := by
  have hdata := (h.lengths hL).2
  have hbytes := hL.bytes_lt
  have hle : ((dataBlocks segs).length + L.firstDataBlock) * L.blockSize ≤
      L.totalBlocks * L.blockSize := Nat.mul_le_mul_right _ hdata
  rw [Nat.add_mul] at hle
  unfold capacity
  omega

theorem Stream.does_readLoop (h : Stream L V root segs) {rounds off size : Nat}
    (hrounds : size ≤ rounds) :
    Does L V (extentReadLoop root rounds off size : NyfsM D _)
      (.ok (bytesAt (streamAt L V (dataBlocks segs)) off (min size (capacity L segs - off)))) V := by
  have hs : 0 < L.blockSize := by
    have := hL.blockSize_ge
    omega
  induction rounds generalizing off size with
  | zero =>
      obtain rfl : size = 0 := by omega
      rw [Nat.zero_min]
      exact Does.pure []
  | succ rounds ih =>
      rw [extentReadLoop]
      by_cases hsize : size = 0
      · subst hsize
        rw [if_pos rfl, Nat.zero_min]
        exact Does.pure []
      · rw [if_neg hsize]
        refine Does.blockSize_bind ?_
        dsimp only
        by_cases hin : off / L.blockSize < (dataBlocks segs).length
        · have hcap := h.capacity_lt hL
          have hend := block_end_le_capacity hs hin
          have hmod := Nat.mod_lt off hs
          have hresolve := h.resolve (D := D) hL (off / L.blockSize)
          rw [List.getElem?_eq_getElem hin] at hresolve
          have hdata := h.chain.isData _ (List.mem_append_right _ (List.getElem_mem hin))
          refine hresolve.attempt_bind ?_
          dsimp only
          refine (does_readBlock hL hdata hmod (by omega)).bind ?_
          rw [Nat.mod_eq_of_lt (by omega)]
          refine (ih (by omega)).bind ?_
          have hsplit : min size (capacity L segs - off) =
              min (L.blockSize - off % L.blockSize) size +
                min (size - min (L.blockSize - off % L.blockSize) size)
                  (capacity L segs - (off + min (L.blockSize - off % L.blockSize) size)) := by
            omega
          rw [hsplit, bytesAt_add, bytesAt_streamAt (List.getElem?_eq_getElem hin) (by omega)]
          exact Does.pure _
        · have hcap := capacity_le_of_ge (Nat.not_lt.mp hin)
          have hresolve := h.resolve (D := D) hL (off / L.blockSize)
          rw [List.getElem?_eq_none (Nat.not_lt.mp hin)] at hresolve
          refine hresolve.attempt_bind_error ?_
          rw [Nat.sub_eq_zero_of_le hcap, Nat.min_zero]
          exact Does.pure []

/-- Reading returns the bytes of the stream, cut at its end. -/
theorem Stream.readAt (h : Stream L V root segs) (off size : Nat) :
    Does L V (extentReadAt root off size : NyfsM D _)
      (.ok (bytesAt (streamAt L V (dataBlocks segs)) off (min size (capacity L segs - off)))) V :=
  h.does_readLoop hL le_rfl

end Walks

end Nyfs
end Nyxis
