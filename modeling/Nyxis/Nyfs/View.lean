import Nyxis.Nyfs.Volume

/-!
# What a volume shows

On a device that never fails a volume is a map from offsets to bytes together with the
two free counters of the superblock.  A valid layout cuts this map into the bitmaps, the
inode table and the data blocks; the cut map is the volume's view.

{lit}`Does` says what a call returns and what it makes of the view.  It is stated for
every volume that shows the view, so two volumes that agree behind the superblock get the
same results and stay in agreement.

Main results:

- Theorems {lit}`Does.bind` and {lit}`Does.attempt_bind`: the rules for compound calls.
- Theorems {lit}`does_allocBlock`, {lit}`does_freeBlock`, {lit}`does_allocInode`,
  {lit}`does_freeInode`, {lit}`does_readInode`, {lit}`does_writeInode`,
  {lit}`does_readBlock` and {lit}`does_writeBlock`: the primitives.
-/

namespace Nyxis
namespace Nyfs

open Bitmap

/-! ## Devices that never fail -/

/-- A device that never fails: it holds a byte at every offset, and reads and writes see
and change exactly their range. -/
class ReliableDevice (D : Type) extends Device D where
  content : D → Nat → UInt8
  read_eq : ∀ d offset size, Device.read d offset size = (.ok (bytesAt (content d) offset size), d)
  write_eq : ∀ d offset bytes, ∃ d', Device.write d offset bytes = (.ok (), d') ∧
    content d' = splice (content d) offset bytes

theorem rawRead_eq {D : Type} [ReliableDevice D] (v : Volume D) (offset size : Nat) :
    rawRead offset size v = (.ok (bytesAt (ReliableDevice.content v.disk) (offset % 2 ^ 64) size), v) := by
  rw [rawRead, ReliableDevice.read_eq]

/-- A write that succeeds puts its bytes onto the device and changes nothing else. -/
theorem rawWrite_ok {D : Type} [ReliableDevice D] {v v' : Volume D} {offset : Nat}
    {bytes : List UInt8} (h : rawWrite offset bytes v = (.ok (), v')) :
    v' = { v with disk := v'.disk } ∧
      bytesAt (ReliableDevice.content v'.disk) (offset % 2 ^ 64) bytes.length = bytes := by
  obtain ⟨d, hwrite, hcontent⟩ := ReliableDevice.write_eq v.disk (offset % 2 ^ 64) bytes
  rw [rawWrite] at h
  split at h
  next =>
    rw [hwrite] at h
    cases h
    refine ⟨rfl, ?_⟩
    dsimp only
    rw [hcontent, bytesAt_splice_self]
  next => cases h

/-! ## Layouts -/

/-- The geometry of a volume. -/
structure Layout where
  blockSize : Nat
  totalBlocks : Nat
  inodeCount : Nat
  inodeBitmapStart : Nat
  allocMetaStart : Nat
  inodeTableStart : Nat
  firstDataBlock : Nat
deriving DecidableEq

/-- The regions follow each other and end inside the 64-bit offsets. -/
structure Layout.Valid (L : Layout) : Prop where
  blockSize_ge : 512 ≤ L.blockSize
  blockSize_le : L.blockSize ≤ 65536
  blockSize_mod : L.blockSize % 8 = 0
  superblock_le : 256 ≤ L.inodeBitmapStart * L.blockSize
  inodeBitmap_le :
    L.inodeBitmapStart * L.blockSize + (L.inodeCount + 7) / 8 ≤ L.allocMetaStart * L.blockSize
  blockBitmap_le :
    L.allocMetaStart * L.blockSize + (L.totalBlocks + 7) / 8 ≤ L.inodeTableStart * L.blockSize
  inodeTable_le :
    L.inodeTableStart * L.blockSize + L.inodeCount * 256 ≤ L.firstDataBlock * L.blockSize
  firstDataBlock_lt : L.firstDataBlock < L.totalBlocks
  bytes_lt : L.totalBlocks * L.blockSize < 2 ^ 64
  inodeCount_pos : 0 < L.inodeCount

/-- A block behind the metadata. -/
structure Layout.IsData (L : Layout) (b : Nat) : Prop where
  ge : L.firstDataBlock ≤ b
  lt : b < L.totalBlocks

instance (L : Layout) (b : Nat) : Decidable (L.IsData b) :=
  decidable_of_iff (L.firstDataBlock ≤ b ∧ b < L.totalBlocks)
    ⟨fun h => ⟨h.1, h.2⟩, fun h => ⟨h.ge, h.lt⟩⟩

/-- The layout that a superblock describes. -/
def Superblock.layout (sb : Superblock) : Layout where
  blockSize := 2 ^ sb.blockSizeShift
  totalBlocks := sb.totalBlocks
  inodeCount := sb.inodeCount
  inodeBitmapStart := sb.inodeBitmapStart
  allocMetaStart := sb.allocMetaStart
  inodeTableStart := sb.inodeTableStart
  firstDataBlock :=
    sb.inodeTableStart + max 1 ((sb.inodeCount * 256 + 2 ^ sb.blockSizeShift - 1) /
      2 ^ sb.blockSizeShift)

/-- The part of a superblock that calls on a mounted volume leave alone. -/
def Superblock.core (sb : Superblock) : Superblock :=
  { sb with freeBlocks := 0, freeInodeCount := 0, checksum := 0 }

/-! ## Stores and views -/

/-- The bytes behind the superblock and the free counters. -/
structure Store where
  image : Nat → UInt8
  freeBlocks : Nat
  freeInodes : Nat

/-- The parts of a volume. -/
@[ext]
structure View where
  blockBit : Nat → Bool
  inodeBit : Nat → Bool
  inode : Nat → Inode
  block : Nat → Nat → UInt8
  freeBlocks : Nat
  freeInodes : Nat

/-- The inode records of an image. -/
def inodesAt (L : Layout) (image : Nat → UInt8) (i : Nat) : Inode :=
  if i < L.inodeCount then
    decodeInode (bytesAt image (L.inodeTableStart * L.blockSize + i * 256) 256)
  else
    Inode.zero

/-- The data blocks of an image. -/
def blocksAt (L : Layout) (image : Nat → UInt8) (b o : Nat) : UInt8 :=
  if L.IsData b ∧ o < L.blockSize then image (b * L.blockSize + o) else 0

/-- A store cut into its parts. -/
def Store.view (L : Layout) (S : Store) : View where
  blockBit := bitsAt S.image (L.allocMetaStart * L.blockSize) L.totalBlocks
  inodeBit := bitsAt S.image (L.inodeBitmapStart * L.blockSize) L.inodeCount
  inode := inodesAt L S.image
  block := blocksAt L S.image
  freeBlocks := S.freeBlocks
  freeInodes := S.freeInodes

variable {D : Type} [ReliableDevice D]

/-- A volume that has the given layout and store, with its superblock flushed. -/
structure Shows (L : Layout) (v : Volume D) (S : Store) : Prop where
  layout : v.sb.layout = L
  blockSize : v.blockSize = L.blockSize
  writable : v.writable = true
  freeBlocks : v.sb.freeBlocks = S.freeBlocks
  freeInodes : v.sb.freeInodeCount = S.freeInodes
  superblock : bytesAt (ReliableDevice.content v.disk) 0 256 = encodeSuperblock v.sb
  sealed : sealSuperblock v.sb = v.sb
  image : ∀ o, 256 ≤ o → ReliableDevice.content v.disk o = S.image o

/-- From every volume that shows the first store, the call returns the given outcome and
leaves a volume that shows the second. -/
def Runs {α : Type} (L : Layout) (S : Store) (m : NyfsM D α) (r : Except Stop α) (S' : Store) :
    Prop :=
  ∀ v, Shows L v S → ∃ v', m v = (r, v') ∧ Shows L v' S' ∧ v'.sb.core = v.sb.core

/-- The call returns the given outcome and turns the first view into the second. -/
def Does {α : Type} (L : Layout) (V : View) (m : NyfsM D α) (r : Except Stop α) (V' : View) :
    Prop :=
  ∀ S : Store, S.view L = V → ∃ S' : Store, S'.view L = V' ∧ Runs L S m r S'

/-! ## Rules for compound calls -/

section Rules

variable {α β : Type} {L : Layout} {S S' S'' : Store} {V V' V'' : View}
variable {m : NyfsM D α} {f : α → NyfsM D β} {r : Except Stop β} {a : α} {e : Stop}

theorem Runs.bind (hm : Runs L S m (.ok a) S') (hf : Runs L S' (f a) r S'') :
    Runs L S (m >>= f) r S'' := by
  intro v hv
  obtain ⟨v', hrun, hv', hcore⟩ := hm v hv
  obtain ⟨v'', hrun', hv'', hcore'⟩ := hf v' hv'
  exact ⟨v'', (Eff.bind_ok hrun).trans hrun', hv'', hcore'.trans hcore⟩

theorem Runs.bind_error (hm : Runs L S m (.error e) S') :
    Runs L S (m >>= f) (.error e) S' := by
  intro v hv
  obtain ⟨v', hrun, hv', hcore⟩ := hm v hv
  exact ⟨v', Eff.bind_error hrun, hv', hcore⟩

theorem Does.pure (a : α) : Does L V (pure a : NyfsM D α) (.ok a) V :=
  fun S hS => ⟨S, hS, fun v hv => ⟨v, rfl, hv, rfl⟩⟩

theorem Does.fail (e : Nstatus) :
    Does L V (failWith e : NyfsM D α) (.error (.status e)) V :=
  fun S hS => ⟨S, hS, fun v hv => ⟨v, rfl, hv, rfl⟩⟩

theorem Does.bind (hm : Does L V m (.ok a) V') (hf : Does L V' (f a) r V'') :
    Does L V (m >>= f) r V'' := by
  intro S hS
  obtain ⟨S', hS', hrun⟩ := hm S hS
  obtain ⟨S'', hS'', hrun'⟩ := hf S' hS'
  exact ⟨S'', hS'', hrun.bind hrun'⟩

theorem Does.bind_error (hm : Does L V m (.error e) V') :
    Does L V (m >>= f) (.error e) V' := by
  intro S hS
  obtain ⟨S', hS', hrun⟩ := hm S hS
  exact ⟨S', hS', hrun.bind_error⟩

/-- Reading what every volume with the layout has in common. -/
theorem Does.gets_bind {g : Volume D → α} (hg : ∀ v S, Shows L v S → g v = a)
    (hf : Does L V (f a) r V') : Does L V (Eff.gets g >>= f) r V' := by
  intro S hS
  obtain ⟨S', hS', hrun⟩ := hf S hS
  refine ⟨S', hS', fun v hv => ?_⟩
  rw [Eff.gets_bind_run, hg v S hv]
  exact hrun v hv

theorem Does.attempt_bind {g : Except Nstatus α → NyfsM D β} (hm : Does L V m (.ok a) V')
    (hg : Does L V' (g (.ok a)) r V'') : Does L V (attemptStatus m >>= g) r V'' := by
  intro S hS
  obtain ⟨S', hS', hrun⟩ := hm S hS
  obtain ⟨S'', hS'', hrun'⟩ := hg S' hS'
  refine ⟨S'', hS'', fun v hv => ?_⟩
  obtain ⟨v', hmv, hv', hcore⟩ := hrun v hv
  obtain ⟨v'', hgv, hv'', hcore'⟩ := hrun' v' hv'
  refine ⟨v'', ?_, hv'', hcore'.trans hcore⟩
  have hattempt : attemptStatus m v = (.ok (.ok a), v') := by
    rw [attemptStatus, hmv]
  rw [Eff.bind_ok hattempt, hgv]

theorem Does.attempt_bind_error {g : Except Nstatus α → NyfsM D β} {e : Nstatus}
    (hm : Does L V m (.error (.status e)) V') (hg : Does L V' (g (.error e)) r V'') :
    Does L V (attemptStatus m >>= g) r V'' := by
  intro S hS
  obtain ⟨S', hS', hrun⟩ := hm S hS
  obtain ⟨S'', hS'', hrun'⟩ := hg S' hS'
  refine ⟨S'', hS'', fun v hv => ?_⟩
  obtain ⟨v', hmv, hv', hcore⟩ := hrun v hv
  obtain ⟨v'', hgv, hv'', hcore'⟩ := hrun' v' hv'
  refine ⟨v'', ?_, hv'', hcore'.trans hcore⟩
  have hattempt : attemptStatus m v = (.ok (.error e), v') := by
    rw [attemptStatus, hmv]
  rw [Eff.bind_ok hattempt, hgv]

/-- A call is determined by the view: it has one outcome and one resulting view on each
store that some volume shows. -/
theorem Does.unique {r' : Except Stop α} {s : Except Stop α} {v : Volume D}
    (h : Does L V m s V') (h' : Does L V m r' V'') (hv : Shows L v S) (hS : S.view L = V) :
    s = r' := by
  obtain ⟨S₁, -, hrun⟩ := h S hS
  obtain ⟨S₂, -, hrun'⟩ := h' S hS
  obtain ⟨v₁, hm, -⟩ := hrun v hv
  obtain ⟨v₂, hm', -⟩ := hrun' v hv
  rw [hm] at hm'
  exact (Prod.mk.inj hm').1

end Rules

/-! ## Raw I/O on a store -/

section Raw

variable {L : Layout} {S : Store} {offset : Nat} {bytes : List UInt8}

theorem runs_rawRead (size : Nat) (hlo : 256 ≤ offset) (hhi : offset < 2 ^ 64) :
    Runs L S (rawRead offset size : NyfsM D _) (.ok (bytesAt S.image offset size)) S := by
  intro v hv
  refine ⟨v, ?_, hv, rfl⟩
  have hbytes : bytesAt (ReliableDevice.content v.disk) offset size = bytesAt S.image offset size :=
    bytesAt_congr (fun o ho _ => hv.image o (by omega))
  rw [rawRead, Nat.mod_eq_of_lt hhi, ReliableDevice.read_eq, hbytes]

theorem runs_rawWrite (hlo : 256 ≤ offset) (hhi : offset < 2 ^ 64) :
    Runs L S (rawWrite offset bytes : NyfsM D _) (.ok ())
      { S with image := splice S.image offset bytes } := by
  intro v hv
  obtain ⟨d, hwrite, hcontent⟩ := ReliableDevice.write_eq v.disk offset bytes
  refine ⟨{ v with disk := d }, ?_, ?_, rfl⟩
  · rw [rawWrite, if_pos hv.writable, Nat.mod_eq_of_lt hhi, hwrite]
  · refine ⟨hv.layout, hv.blockSize, hv.writable, hv.freeBlocks, hv.freeInodes, ?_, hv.sealed, ?_⟩
    · rw [hcontent, bytesAt_splice_of_disjoint _ (Or.inl (by omega))]
      exact hv.superblock
    · intro o ho
      rw [hcontent]
      simp only [splice]
      split
      next => exact hv.image o ho
      next => rw [hv.image o ho]

/-- Flushing a changed superblock. -/
theorem runs_flush {v : Volume D} (sb : Superblock) (hv : Shows L v S)
    (hlayout : sb.layout = v.sb.layout) :
    ∃ v', flushSuperblock { v with sb := sb } = (.ok (), v') ∧
      Shows L v' { S with freeBlocks := sb.freeBlocks, freeInodes := sb.freeInodeCount } ∧
      v'.sb = sealSuperblock sb := by
  obtain ⟨d, hwrite, hcontent⟩ :=
    ReliableDevice.write_eq v.disk 0 (encodeSuperblock (sealSuperblock sb))
  refine ⟨{ v with disk := d, sb := sealSuperblock sb }, ?_, ?_, rfl⟩
  · rw [flushSuperblock, Eff.modify_bind_run, Eff.gets_bind_run]
    simp only [rawWrite, hv.writable, if_true, Nat.zero_mod, hwrite]
  · refine ⟨hlayout.trans hv.layout, hv.blockSize, hv.writable, rfl, rfl, ?_, rfl, ?_⟩
    · have hlen : (encodeSuperblock (sealSuperblock sb)).length = 256 := length_encodeSuperblock _
      have hself := bytesAt_splice_self (ReliableDevice.content v.disk) 0
        (encodeSuperblock (sealSuperblock sb))
      rw [hlen] at hself
      rw [hcontent]
      exact hself
    · intro o ho
      rw [hcontent, splice_of_ge _ (by rw [length_encodeSuperblock]; omega)]
      exact hv.image o ho

theorem runs_bitmapGet {start count i : Nat} (hlo : 256 ≤ start * L.blockSize)
    (hhi : start * L.blockSize + (count + 7) / 8 < 2 ^ 64) (hi : i < count) :
    Runs L S (bitmapGet start i : NyfsM D _)
      (.ok (bitsAt S.image (start * L.blockSize) count i)) S := by
  have hlo' : 256 ≤ start * L.blockSize + i / 8 := by omega
  have hhi' : start * L.blockSize + i / 8 < 2 ^ 64 := by omega
  intro v hv
  obtain ⟨v', hread, hv', hcore⟩ := runs_rawRead 1 hlo' hhi' v hv
  refine ⟨v', ?_, hv', hcore⟩
  rw [bitmapGet, Eff.gets_bind_run, hv.blockSize, Eff.bind_ok hread, bitsAt_of_lt _ _ hi]
  rfl

theorem runs_bitmapPut {start count i : Nat} (hlo : 256 ≤ start * L.blockSize)
    (hhi : start * L.blockSize + (count + 7) / 8 < 2 ^ 64) (hi : i < count) (value : Bool) :
    Runs L S (bitmapPut start i value : NyfsM D _) (.ok ())
      { S with
        image := splice S.image (start * L.blockSize + i / 8)
          [putBit (S.image (start * L.blockSize + i / 8)) (i % 8) value] } := by
  have hlo' : 256 ≤ start * L.blockSize + i / 8 := by omega
  have hhi' : start * L.blockSize + i / 8 < 2 ^ 64 := by omega
  intro v hv
  rw [bitmapPut, Eff.gets_bind_run, hv.blockSize]
  refine Runs.bind (runs_rawRead 1 hlo' hhi') ?_ v hv
  exact runs_rawWrite hlo' hhi'

theorem runs_adjustFreeBlocks (f : Nat → Nat) :
    Runs L S (adjustFreeBlocks f : NyfsM D _) (.ok ())
      { S with freeBlocks := f S.freeBlocks } := by
  intro v hv
  obtain ⟨v', hrun, hv', hsb⟩ := runs_flush
    { v.sb with freeBlocks := f v.sb.freeBlocks } hv rfl
  refine ⟨v', ?_, ?_, ?_⟩
  · rw [adjustFreeBlocks, Eff.modify_bind_run]
    exact hrun
  · rw [← hv.freeBlocks, ← hv.freeInodes] at *
    exact hv'
  · rw [hsb]
    rfl

theorem runs_adjustFreeInodes (f : Nat → Nat) :
    Runs L S (adjustFreeInodes f : NyfsM D _) (.ok ())
      { S with freeInodes := f S.freeInodes } := by
  intro v hv
  obtain ⟨v', hrun, hv', hsb⟩ := runs_flush
    { v.sb with freeInodeCount := f v.sb.freeInodeCount } hv rfl
  refine ⟨v', ?_, ?_, ?_⟩
  · rw [adjustFreeInodes, Eff.modify_bind_run]
    exact hrun
  · rw [← hv.freeBlocks, ← hv.freeInodes] at *
    exact hv'
  · rw [hsb]
    rfl

end Raw

/-! ## Writes into the regions of an image -/

section Regions

variable {L : Layout} {image : Nat → UInt8} {offset : Nat} {bytes : List UInt8}

theorem inodesAt_splice_of_disjoint
    (h : offset + bytes.length ≤ L.inodeTableStart * L.blockSize ∨
      L.inodeTableStart * L.blockSize + L.inodeCount * 256 ≤ offset) :
    inodesAt L (splice image offset bytes) = inodesAt L image := by
  funext i
  unfold inodesAt
  split
  next hi =>
    rw [bytesAt_splice_of_disjoint]
    omega
  next => rfl

theorem inodesAt_splice_record {i : Nat} {x : Inode} (hi : i < L.inodeCount) (hx : x.Fits) :
    inodesAt L (splice image (L.inodeTableStart * L.blockSize + i * 256) (encodeInode x)) =
      Function.update (inodesAt L image) i x := by
  have hlen : (encodeInode x).length = 256 := length_encodeInode x
  funext j
  by_cases hj : j = i
  · subst hj
    have hself := bytesAt_splice_self image (L.inodeTableStart * L.blockSize + j * 256)
      (encodeInode x)
    rw [hlen] at hself
    rw [Function.update_self, inodesAt, if_pos hi, hself, decodeInode_encode hx]
  · rw [Function.update_of_ne hj]
    unfold inodesAt
    split
    next hjc =>
      rw [bytesAt_splice_of_disjoint]
      omega
    next => rfl

theorem blocksAt_splice_of_le (h : offset + bytes.length ≤ L.firstDataBlock * L.blockSize) :
    blocksAt L (splice image offset bytes) = blocksAt L image := by
  funext b o
  unfold blocksAt
  split
  next hb =>
    have hle : L.firstDataBlock * L.blockSize ≤ b * L.blockSize :=
      Nat.mul_le_mul_right _ hb.1.ge
    rw [splice_of_ge _ (by omega)]
  next => rfl

/-- The block of an offset inside a block. -/
theorem block_offset_disjoint {s b c o p : Nat} (hne : c ≠ b) (ho : o < s) (hp : p ≤ s) :
    c * s + o < b * s ∨ b * s + p ≤ c * s + o := by
  rcases Nat.lt_or_gt_of_ne hne with hlt | hgt
  · left
    have hle : (c + 1) * s ≤ b * s := Nat.mul_le_mul_right _ hlt
    rw [Nat.add_mul, Nat.one_mul] at hle
    omega
  · right
    have hle : (b + 1) * s ≤ c * s := Nat.mul_le_mul_right _ hgt
    rw [Nat.add_mul, Nat.one_mul] at hle
    omega

theorem blocksAt_splice_block {b o : Nat} (hb : L.IsData b) (ho : o + bytes.length ≤ L.blockSize) :
    blocksAt L (splice image (b * L.blockSize + o) bytes) =
      Function.update (blocksAt L image) b (splice (blocksAt L image b) o bytes) := by
  funext c p
  by_cases hc : c = b
  · subst hc
    rw [Function.update_self]
    by_cases hp : p < L.blockSize
    · rw [blocksAt, if_pos ⟨hb, hp⟩]
      simp only [splice]
      by_cases hpo : p < o
      · rw [if_pos (by omega), if_pos hpo, blocksAt, if_pos ⟨hb, hp⟩]
      · rw [if_neg (by omega), if_neg hpo, blocksAt, if_pos ⟨hb, hp⟩, Nat.add_sub_add_left]
    · rw [blocksAt, if_neg (fun h => hp h.2), splice_of_ge _ (by omega), blocksAt,
        if_neg (fun h => hp h.2)]
  · rw [Function.update_of_ne hc]
    unfold blocksAt
    split
    next hcp =>
      rcases block_offset_disjoint hc hcp.2 ho with h | h
      · rw [splice_of_lt _ _ (by omega)]
      · rw [splice_of_ge _ (by omega)]
    next => rfl

theorem bytesAt_blocksAt {b o n : Nat} (hb : L.IsData b) (hn : o + n ≤ L.blockSize) :
    bytesAt image (b * L.blockSize + o) n = bytesAt (blocksAt L image b) o n := by
  refine List.map_congr_left (fun i hi => ?_)
  rw [List.mem_range] at hi
  rw [blocksAt, if_pos ⟨hb, by omega⟩, Nat.add_assoc]

end Regions

/-! ## Primitives on a view -/

/-- A view with bytes written into a block. -/
def View.writeBlock (V : View) (b o : Nat) (bytes : List UInt8) : View :=
  { V with block := Function.update V.block b (splice (V.block b) o bytes) }

/-- A view with a record written into the inode table. -/
def View.writeInode (V : View) (i : Nat) (x : Inode) : View :=
  { V with inode := Function.update V.inode i x }

@[simp]
theorem View.writeInode_self (V : View) (i : Nat) (x : Inode) : (V.writeInode i x).inode i = x :=
  Function.update_self ..

/-- A view with a block taken. -/
def View.takeBlock (V : View) (b : Nat) : View :=
  { V with blockBit := Function.update V.blockBit b true, freeBlocks := wrapPred V.freeBlocks }

/-- A view with a block given back. -/
def View.dropBlock (V : View) (b : Nat) : View :=
  { V with blockBit := Function.update V.blockBit b false, freeBlocks := wrapSucc V.freeBlocks }

/-- A view with an inode taken. -/
def View.takeInode (V : View) (i : Nat) : View :=
  { V with inodeBit := Function.update V.inodeBit i true, freeInodes := wrapPred V.freeInodes }

/-- A view with an inode given back. -/
def View.dropInode (V : View) (i : Nat) : View :=
  { V with inodeBit := Function.update V.inodeBit i false, freeInodes := wrapSucc V.freeInodes }

/-- The first clear bit from a position on. -/
def firstClear (bits : Nat → Bool) : (count i : Nat) → Option Nat
  | 0, _ => none
  | count + 1, i => if bits i then firstClear bits count (i + 1) else some i

theorem firstClear_some {bits : Nat → Bool} {count i j : Nat} (h : firstClear bits count i = some j) :
    i ≤ j ∧ j < i + count ∧ bits j = false := by
  induction count generalizing i with
  | zero => cases h
  | succ n ih =>
      rw [firstClear] at h
      split at h
      next =>
        obtain ⟨hlo, hhi, hbit⟩ := ih h
        exact ⟨by omega, by omega, hbit⟩
      next hbit =>
        cases h
        exact ⟨le_rfl, by omega, by simpa using hbit⟩

theorem firstClear_none {bits : Nat → Bool} {count i j : Nat} (h : firstClear bits count i = none)
    (hlo : i ≤ j) (hhi : j < i + count) : bits j = true := by
  induction count generalizing i with
  | zero => omega
  | succ n ih =>
      rw [firstClear] at h
      split at h
      next hbit =>
        by_cases hj : j = i
        · rw [hj]
          exact hbit
        · exact ih h (by omega) (by omega)
      next => cases h

section Primitives

variable {L : Layout} {V V' : View} {α β : Type} {r : Except Stop β}

theorem Does.blockSize_bind {f : Nat → NyfsM D β} (hf : Does L V (f L.blockSize) r V') :
    Does L V (Eff.gets Volume.blockSize >>= f) r V' :=
  Does.gets_bind (fun _ _ hv => hv.blockSize) hf

theorem Does.totalBlocks_bind {f : Nat → NyfsM D β} (hf : Does L V (f L.totalBlocks) r V') :
    Does L V (Eff.gets (fun v => v.sb.totalBlocks) >>= f) r V' := by
  refine Does.gets_bind (fun v _ hv => ?_) hf
  rw [← hv.layout]
  rfl

theorem Does.allocMetaStart_bind {f : Nat → NyfsM D β} (hf : Does L V (f L.allocMetaStart) r V') :
    Does L V (Eff.gets (fun v => v.sb.allocMetaStart) >>= f) r V' := by
  refine Does.gets_bind (fun v _ hv => ?_) hf
  rw [← hv.layout]
  rfl

theorem Does.inodeCount_bind {f : Nat → NyfsM D β} (hf : Does L V (f L.inodeCount) r V') :
    Does L V (Eff.gets (fun v => v.sb.inodeCount) >>= f) r V' := by
  refine Does.gets_bind (fun v _ hv => ?_) hf
  rw [← hv.layout]
  rfl

theorem Does.inodeBitmapStart_bind {f : Nat → NyfsM D β}
    (hf : Does L V (f L.inodeBitmapStart) r V') :
    Does L V (Eff.gets (fun v => v.sb.inodeBitmapStart) >>= f) r V' := by
  refine Does.gets_bind (fun v _ hv => ?_) hf
  rw [← hv.layout]
  rfl

theorem Does.inodeOffset_bind {f : Nat → NyfsM D β} {i : Nat}
    (hf : Does L V (f (L.inodeTableStart * L.blockSize + i * 256)) r V') :
    Does L V (inodeOffset i >>= f) r V' := by
  refine Does.gets_bind (fun v _ hv => ?_) hf
  rw [hv.blockSize, ← hv.layout]
  rfl

theorem Does.writable_bind {f : Bool → NyfsM D β} (hf : Does L V (f true) r V') :
    Does L V (Eff.gets Volume.writable >>= f) r V' :=
  Does.gets_bind (fun _ _ hv => hv.writable) hf

variable (hL : L.Valid)

include hL

/-! ### Blocks -/

theorem Layout.Valid.block_bounds {b o : Nat} (hb : L.IsData b) (ho : o ≤ L.blockSize) :
    256 ≤ b * L.blockSize + o ∧ b * L.blockSize + o < 2 ^ 64 + L.blockSize ∧
      (o < L.blockSize → b * L.blockSize + o < 2 ^ 64) := by
  have hlo : L.firstDataBlock * L.blockSize ≤ b * L.blockSize := Nat.mul_le_mul_right _ hb.ge
  have hhi : (b + 1) * L.blockSize ≤ L.totalBlocks * L.blockSize := Nat.mul_le_mul_right _ hb.lt
  rw [Nat.add_mul, Nat.one_mul] at hhi
  have := hL.superblock_le
  have := hL.inodeBitmap_le
  have := hL.blockBitmap_le
  have := hL.inodeTable_le
  have := hL.bytes_lt
  omega

/-- Reading inside a data block. -/
theorem does_readBlock {b o n : Nat} (hb : L.IsData b) (ho : o < L.blockSize)
    (hn : o + n ≤ L.blockSize) :
    Does L V (rawRead (b * L.blockSize + o) n : NyfsM D _) (.ok (bytesAt (V.block b) o n)) V := by
  intro S hS
  obtain ⟨hlo, -, hhi⟩ := hL.block_bounds hb ho.le
  refine ⟨S, hS, ?_⟩
  have hrun := runs_rawRead (D := D) (L := L) (S := S) n hlo (hhi ho)
  rw [bytesAt_blocksAt hb hn] at hrun
  rw [← hS]
  exact hrun

/-- Writing inside a data block. -/
theorem does_writeBlock {b o : Nat} {bytes : List UInt8} (hb : L.IsData b) (ho : o < L.blockSize)
    (hn : o + bytes.length ≤ L.blockSize) :
    Does L V (rawWrite (b * L.blockSize + o) bytes : NyfsM D _) (.ok ())
      (V.writeBlock b o bytes) := by
  intro S hS
  obtain ⟨hlo, -, hhi⟩ := hL.block_bounds hb ho.le
  refine ⟨_, ?_, runs_rawWrite hlo (hhi ho)⟩
  have hge : L.firstDataBlock * L.blockSize ≤ b * L.blockSize := Nat.mul_le_mul_right _ hb.ge
  have hbitmap := hL.inodeBitmap_le
  have hblocks := hL.blockBitmap_le
  have htable := hL.inodeTable_le
  subst hS
  ext1
  · exact bitsAt_splice_of_disjoint _ (Or.inr (by omega))
  · exact bitsAt_splice_of_disjoint _ (Or.inr (by omega))
  · exact inodesAt_splice_of_disjoint (Or.inr (by omega))
  · exact blocksAt_splice_block hb hn
  · rfl
  · rfl

/-! ### Bitmaps -/

theorem Layout.Valid.bitmap_bounds :
    256 ≤ L.inodeBitmapStart * L.blockSize ∧ 256 ≤ L.allocMetaStart * L.blockSize ∧
      L.inodeBitmapStart * L.blockSize + (L.inodeCount + 7) / 8 < 2 ^ 64 ∧
      L.allocMetaStart * L.blockSize + (L.totalBlocks + 7) / 8 < 2 ^ 64 ∧
      L.inodeTableStart * L.blockSize + L.inodeCount * 256 < 2 ^ 64 := by
  have hdata : L.firstDataBlock * L.blockSize ≤ L.totalBlocks * L.blockSize :=
    Nat.mul_le_mul_right _ hL.firstDataBlock_lt.le
  have := hL.superblock_le
  have := hL.inodeBitmap_le
  have := hL.blockBitmap_le
  have := hL.inodeTable_le
  have := hL.bytes_lt
  omega

theorem does_blockBitmapGet {i : Nat} (hi : i < L.totalBlocks) :
    Does L V (bitmapGet L.allocMetaStart i : NyfsM D _) (.ok (V.blockBit i)) V := by
  obtain ⟨-, hlo, -, hhi, -⟩ := hL.bitmap_bounds
  rintro S rfl
  exact ⟨S, rfl, runs_bitmapGet hlo hhi hi⟩

theorem does_inodeBitmapGet {i : Nat} (hi : i < L.inodeCount) :
    Does L V (bitmapGet L.inodeBitmapStart i : NyfsM D _) (.ok (V.inodeBit i)) V := by
  obtain ⟨hlo, -, hhi, -, -⟩ := hL.bitmap_bounds
  rintro S rfl
  exact ⟨S, rfl, runs_bitmapGet hlo hhi hi⟩

theorem does_blockBitmapPut {i : Nat} (hi : i < L.totalBlocks) (value : Bool) :
    Does L V (bitmapPut L.allocMetaStart i value : NyfsM D _) (.ok ())
      { V with blockBit := Function.update V.blockBit i value } := by
  obtain ⟨-, hlo, -, hhi, -⟩ := hL.bitmap_bounds
  have hib := hL.inodeBitmap_le
  have hbb := hL.blockBitmap_le
  have hit := hL.inodeTable_le
  rintro S rfl
  refine ⟨_, ?_, runs_bitmapPut hlo hhi hi value⟩
  ext1
  · exact bitsAt_splice_putBit S.image _ hi value
  · exact bitsAt_splice_of_disjoint _ (Or.inr (by omega))
  · exact inodesAt_splice_of_disjoint (Or.inl (by simp only [List.length_singleton]; omega))
  · exact blocksAt_splice_of_le (by simp only [List.length_singleton]; omega)
  · rfl
  · rfl

theorem does_inodeBitmapPut {i : Nat} (hi : i < L.inodeCount) (value : Bool) :
    Does L V (bitmapPut L.inodeBitmapStart i value : NyfsM D _) (.ok ())
      { V with inodeBit := Function.update V.inodeBit i value } := by
  obtain ⟨hlo, -, hhi, -, -⟩ := hL.bitmap_bounds
  have hib := hL.inodeBitmap_le
  have hbb := hL.blockBitmap_le
  have hit := hL.inodeTable_le
  rintro S rfl
  refine ⟨_, ?_, runs_bitmapPut hlo hhi hi value⟩
  ext1
  · exact bitsAt_splice_of_disjoint _ (Or.inl (by simp only [List.length_singleton]; omega))
  · exact bitsAt_splice_putBit S.image _ hi value
  · exact inodesAt_splice_of_disjoint (Or.inl (by simp only [List.length_singleton]; omega))
  · exact blocksAt_splice_of_le (by simp only [List.length_singleton]; omega)
  · rfl
  · rfl

omit hL in
/-- The scan for a clear bit finds the first one. -/
theorem does_findClear {start : Nat} {bits : Nat → Bool} {count i : Nat}
    (hget : ∀ j, i ≤ j → j < i + count →
      Does L V (bitmapGet start j : NyfsM D _) (.ok (bits j)) V) :
    Does L V (findClear start count i : NyfsM D _) (.ok (firstClear bits count i)) V := by
  induction count generalizing i with
  | zero => exact Does.pure none
  | succ n ih =>
      have hrest := ih (i := i + 1) (fun j hlo hhi => hget j (by omega) (by omega))
      rw [findClear, firstClear]
      refine (hget i le_rfl (by omega)).bind ?_
      cases hbit : bits i with
      | true => simpa using hrest
      | false => simpa using Does.pure (some i)

omit hL in
theorem does_adjustFreeBlocks (f : Nat → Nat) :
    Does L V (adjustFreeBlocks f : NyfsM D _) (.ok ()) { V with freeBlocks := f V.freeBlocks } := by
  rintro S rfl
  exact ⟨_, rfl, runs_adjustFreeBlocks f⟩

omit hL in
theorem does_adjustFreeInodes (f : Nat → Nat) :
    Does L V (adjustFreeInodes f : NyfsM D _) (.ok ()) { V with freeInodes := f V.freeInodes } := by
  rintro S rfl
  exact ⟨_, rfl, runs_adjustFreeInodes f⟩

/-! ### Allocators -/

theorem does_allocBlock {b : Nat} (h : firstClear V.blockBit L.totalBlocks 0 = some b) :
    Does L V (allocBlock : NyfsM D _) (.ok b) (V.takeBlock b) := by
  have hb : b < L.totalBlocks := by
    have := (firstClear_some h).2.1
    omega
  refine Does.allocMetaStart_bind (Does.totalBlocks_bind ?_)
  refine (does_findClear (fun j _ hj => does_blockBitmapGet hL (by omega))).bind ?_
  rw [h]
  refine (does_blockBitmapPut hL hb true).bind ((does_adjustFreeBlocks wrapPred).bind ?_)
  exact Does.pure b

theorem does_allocBlock_full (h : firstClear V.blockBit L.totalBlocks 0 = none) :
    Does L V (allocBlock : NyfsM D _) (.error (.status .NdiskFull)) V := by
  refine Does.allocMetaStart_bind (Does.totalBlocks_bind ?_)
  refine (does_findClear (fun j _ hj => does_blockBitmapGet hL (by omega))).bind ?_
  rw [h]
  exact Does.fail .NdiskFull

theorem does_freeBlock {b : Nat} (hb : b < L.totalBlocks) :
    Does L V (freeBlock b : NyfsM D _) (.ok ()) (V.dropBlock b) := by
  refine Does.allocMetaStart_bind ?_
  exact (does_blockBitmapPut hL hb false).bind (does_adjustFreeBlocks wrapSucc)

theorem does_allocInode {i : Nat} (h : firstClear V.inodeBit L.inodeCount 0 = some i) :
    Does L V (allocInode : NyfsM D _) (.ok i) (V.takeInode i) := by
  have hi : i < L.inodeCount := by
    have := (firstClear_some h).2.1
    omega
  refine Does.inodeBitmapStart_bind (Does.inodeCount_bind ?_)
  refine (does_findClear (fun j _ hj => does_inodeBitmapGet hL (by omega))).bind ?_
  rw [h]
  refine (does_inodeBitmapPut hL hi true).bind ((does_adjustFreeInodes wrapPred).bind ?_)
  exact Does.pure i

theorem does_allocInode_full (h : firstClear V.inodeBit L.inodeCount 0 = none) :
    Does L V (allocInode : NyfsM D _) (.error (.status .NoutOfMemory)) V := by
  refine Does.inodeBitmapStart_bind (Does.inodeCount_bind ?_)
  refine (does_findClear (fun j _ hj => does_inodeBitmapGet hL (by omega))).bind ?_
  rw [h]
  exact Does.fail .NoutOfMemory

theorem does_freeInode {i : Nat} (h0 : i ≠ 0) (hi : i < L.inodeCount) :
    Does L V (freeInode i : NyfsM D _) (.ok ()) (V.dropInode i) := by
  refine Does.inodeCount_bind ?_
  rw [if_neg (by rw [nyfsInoNone]; omega)]
  refine Does.inodeBitmapStart_bind ?_
  exact (does_inodeBitmapPut hL hi false).bind (does_adjustFreeInodes wrapSucc)

/-! ### Inodes -/

/-- A record that {lit}`nyfs_read_inode` accepts. -/
structure Inode.Sealed (i : Nat) (x : Inode) : Prop where
  ino : x.ino = i
  checksum : inodeChecksum x = x.checksum

omit hL in
theorem does_readInode_invalid {i : Nat} (h : i = 0 ∨ L.inodeCount ≤ i) :
    Does L V (readInode i : NyfsM D _) (.error (.status .NinvalidArg)) V := by
  refine Does.inodeCount_bind ?_
  rw [nyfsInoNone, if_pos h]
  exact Does.fail .NinvalidArg

theorem Layout.Valid.inode_bounds {i : Nat} (hi : i < L.inodeCount) :
    256 ≤ L.inodeTableStart * L.blockSize + i * 256 ∧
      L.inodeTableStart * L.blockSize + i * 256 < 2 ^ 64 := by
  have := hL.superblock_le
  have := hL.inodeBitmap_le
  have := hL.blockBitmap_le
  have := hL.bitmap_bounds.2.2.2.2
  omega

theorem does_readInode {i : Nat} (h0 : i ≠ 0) (hi : i < L.inodeCount)
    (hx : (V.inode i).Sealed i) : Does L V (readInode i : NyfsM D _) (.ok (V.inode i)) V := by
  refine Does.inodeCount_bind ?_
  rw [if_neg (by rw [nyfsInoNone]; omega)]
  refine Does.inodeOffset_bind ?_
  rintro S rfl
  obtain ⟨hlo, hhi⟩ := hL.inode_bounds hi
  refine ⟨S, rfl, (runs_rawRead 256 hlo hhi).bind ?_⟩
  intro v hv
  refine ⟨v, ?_, hv, rfl⟩
  have hinode : (S.view L).inode i =
      decodeInode (bytesAt S.image (L.inodeTableStart * L.blockSize + i * 256) 256) :=
    if_pos hi
  rw [← hinode, if_neg (by rw [hx.ino]; simp), if_neg (by rw [hx.checksum]; simp)]
  rfl

theorem does_writeInode {i : Nat} {x : Inode} (h0 : i ≠ 0) (hi : i < L.inodeCount)
    (hx : (sealInode i x).Fits) :
    Does L V (writeInode i x : NyfsM D _) (.ok ()) (V.writeInode i (sealInode i x)) := by
  refine Does.inodeCount_bind ?_
  rw [if_neg (by rw [nyfsInoNone]; omega)]
  refine Does.inodeOffset_bind ?_
  rintro S rfl
  obtain ⟨hlo, hhi⟩ := hL.inode_bounds hi
  have hib := hL.inodeBitmap_le
  have hbb := hL.blockBitmap_le
  have hit := hL.inodeTable_le
  have hlen : (encodeInode (sealInode i x)).length = 256 := length_encodeInode _
  refine ⟨_, ?_, runs_rawWrite hlo hhi⟩
  ext1
  · exact bitsAt_splice_of_disjoint _ (Or.inr (by omega))
  · exact bitsAt_splice_of_disjoint _ (Or.inr (by omega))
  · exact inodesAt_splice_record hi hx
  · exact blocksAt_splice_of_le (by omega)
  · rfl
  · rfl

omit hL in
theorem sealInode_sealed (i : Nat) (x : Inode) : (sealInode i x).Sealed i :=
  ⟨rfl, rfl⟩

end Primitives

end Nyfs
end Nyxis
