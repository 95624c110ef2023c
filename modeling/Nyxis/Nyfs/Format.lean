import Nyxis.Nyfs.Updates

/-!
# Formatting

A successful format leaves a volume with an inventory: the bitmaps cover the metadata and the
root directory, and the root directory is empty.

Main results:

- Definition {lit}`Volume.view`: what a volume on a device that never fails shows.
- Theorem {lit}`Does.run`: a call on a mounted volume.
- Theorem {lit}`formatted`: a formatted device opens to a volume with an inventory.
-/

namespace Nyxis
namespace Nyfs

open Bitmap

variable {D : Type} [ReliableDevice D] {L : Layout} {V V' : View} {v v' : Volume D} {S : Store}
variable {p : MkfsParams}

/-! ## Mounted volumes -/

/-- The store of a volume. -/
def Volume.store (v : Volume D) : Store where
  image := ReliableDevice.content v.disk
  freeBlocks := v.sb.freeBlocks
  freeInodes := v.sb.freeInodeCount

/-- The view of a volume. -/
def Volume.view (v : Volume D) : View :=
  v.store.view v.sb.layout

/-- A writable volume whose superblock is on the disk. -/
def Mounted (L : Layout) (v : Volume D) : Prop :=
  Shows L v v.store

theorem Shows.mounted (h : Shows L v S) : Mounted L v :=
  ⟨h.layout, h.blockSize, h.writable, rfl, rfl, h.superblock, h.sealed, fun _ _ => rfl⟩

/-- The view depends on what lies behind the superblock. -/
theorem Shows.view_eq (hL : L.Valid) (h : Shows L v S) : v.view = S.view L := by
  have hblock := hL.superblock_le
  have hib := hL.inodeBitmap_le
  have hbb := hL.blockBitmap_le
  have hit := hL.inodeTable_le
  have himage : ∀ o, 256 ≤ o → v.store.image o = S.image o := h.image
  have hbits : ∀ {start count : Nat}, 256 ≤ start →
      bitsAt v.store.image start count = bitsAt S.image start count := by
    intro start count hstart
    funext i
    unfold bitsAt
    rw [himage _ (by omega)]
  have hinodes : inodesAt L v.store.image = inodesAt L S.image := by
    funext i
    unfold inodesAt
    split
    next => rw [bytesAt_congr (fun o ho _ => himage o (by omega))]
    next => rfl
  have hblocks : blocksAt L v.store.image = blocksAt L S.image := by
    funext b o
    unfold blocksAt
    split
    next hb =>
      have hge : L.firstDataBlock * L.blockSize ≤ b * L.blockSize :=
        Nat.mul_le_mul_right _ hb.1.ge
      exact himage _ (by omega)
    next => rfl
  rw [Volume.view, h.layout]
  ext1
  · exact hbits (by omega)
  · exact hbits (by omega)
  · exact hinodes
  · exact hblocks
  · exact h.freeBlocks
  · exact h.freeInodes

/-- A call on a mounted volume. -/
theorem Does.run {α : Type} {m : NyfsM D α} {r : Except Stop α} (h : Does L V m r V') (hL : L.Valid)
    (hv : Mounted L v) (hV : v.view = V) :
    ∃ v', m v = (r, v') ∧ Mounted L v' ∧ v'.view = V' ∧ v'.sb.core = v.sb.core := by
  have hS : v.store.view L = V := by
    rw [← hV, Volume.view, hv.layout]
  obtain ⟨S', hS', hrun⟩ := h v.store hS
  obtain ⟨v', hm, hshows, hcore⟩ := hrun v hv
  exact ⟨v', hm, hshows.mounted, by rw [hshows.view_eq hL, hS'], hcore⟩

/-- Flushing the superblock of a volume mounts it. -/
theorem flush_mounts (hlayout : v.sb.layout = L) (hsize : v.blockSize = L.blockSize)
    (hwritable : v.writable = true) :
    ∃ v', flushSuperblock v = (.ok (), v') ∧ Shows L v' v.store ∧ v'.sb = sealSuperblock v.sb := by
  obtain ⟨d, hwrite, hcontent⟩ :=
    ReliableDevice.write_eq v.disk 0 (encodeSuperblock (sealSuperblock v.sb))
  refine ⟨{ v with disk := d, sb := sealSuperblock v.sb }, ?_, ?_, rfl⟩
  · rw [flushSuperblock, Eff.modify_bind_run, Eff.gets_bind_run]
    simp only [rawWrite, hwritable, if_true, Nat.zero_mod, hwrite]
  · refine ⟨hlayout, hsize, hwritable, rfl, rfl, ?_, rfl, ?_⟩
    · have hself := bytesAt_splice_self (ReliableDevice.content v.disk) 0
        (encodeSuperblock (sealSuperblock v.sb))
      rw [length_encodeSuperblock] at hself
      rw [hcontent]
      exact hself
    · intro o ho
      rw [hcontent, splice_of_ge _ (by rw [length_encodeSuperblock]; omega)]
      rfl

theorem runs_flushSuperblock : Runs L S (flushSuperblock : NyfsM D _) (.ok ()) S := by
  intro v hv
  obtain ⟨v', hrun, hv', hsb⟩ := runs_flush v.sb hv rfl
  rw [hv.freeBlocks, hv.freeInodes] at hv'
  refine ⟨v', hrun, hv', ?_⟩
  rw [hsb]
  rfl

theorem does_flushSuperblock : Does L V (flushSuperblock : NyfsM D _) (.ok ()) V :=
  fun S hS => ⟨S, hS, runs_flushSuperblock⟩

/-! ## Clearing and marking the bitmaps -/

theorem runs_zeroBlock {block count b : Nat} (hblock : 256 ≤ block * L.blockSize)
    (hlt : block * L.blockSize + b + count ≤ 2 ^ 64) :
    Runs L S (zeroBlock block count b : NyfsM D _) (.ok ())
      { S with image := splice S.image (block * L.blockSize + b) (List.replicate count 0) } := by
  induction count generalizing S b with
  | zero =>
      rw [List.replicate_zero, splice_nil]
      exact fun v hv => ⟨v, rfl, hv, rfl⟩
  | succ n ih =>
      intro v hv
      rw [zeroBlock, Eff.gets_bind_run, hv.blockSize]
      have hfirst : Runs L S (rawWrite (block * L.blockSize + b) [0] : NyfsM D _) (.ok ())
          { S with image := splice S.image (block * L.blockSize + b) [0] } :=
        runs_rawWrite (by omega) (by omega)
      have hrest := ih (S := { S with image := splice S.image (block * L.blockSize + b) [0] })
        (b := b + 1) (by omega)
      have happend := splice_append S.image (block * L.blockSize + b) [0] (List.replicate n 0)
      rw [List.length_singleton] at happend
      dsimp only at hrest
      rw [← Nat.add_assoc, happend] at hrest
      exact hfirst.bind hrest v hv

theorem runs_zeroBlocks {count block : Nat} (hblock : 256 ≤ block * L.blockSize)
    (hlt : (block + count) * L.blockSize ≤ 2 ^ 64) :
    Runs L S (zeroBlocks count block : NyfsM D _) (.ok ())
      { S with
        image := splice S.image (block * L.blockSize) (List.replicate (count * L.blockSize) 0) } := by
  induction count generalizing S block with
  | zero =>
      rw [Nat.zero_mul, List.replicate_zero, splice_nil]
      exact fun v hv => ⟨v, rfl, hv, rfl⟩
  | succ n ih =>
      intro v hv
      rw [zeroBlocks, Eff.gets_bind_run, hv.blockSize]
      have hmul : (block + (n + 1)) * L.blockSize =
          block * L.blockSize + L.blockSize + n * L.blockSize := by
        rw [Nat.add_mul, Nat.succ_mul]
        omega
      have hnext : (block + 1) * L.blockSize = block * L.blockSize + L.blockSize := Nat.succ_mul ..
      have hfirst : Runs L S (zeroBlock block L.blockSize 0 : NyfsM D _) (.ok ())
          { S with image := splice S.image (block * L.blockSize + 0) (List.replicate L.blockSize 0) } :=
        runs_zeroBlock hblock (by omega)
      have hend : (block + 1 + n) * L.blockSize ≤ 2 ^ 64 := by
        rw [Nat.add_right_comm, Nat.add_assoc]
        exact hlt
      have hrest := ih (S := { S with
          image := splice S.image (block * L.blockSize + 0) (List.replicate L.blockSize 0) })
        (by omega) hend
      have happend := splice_append S.image (block * L.blockSize) (List.replicate L.blockSize 0)
        (List.replicate (n * L.blockSize) 0)
      rw [List.length_replicate, List.replicate_append_replicate] at happend
      dsimp only at hrest
      rw [hnext, Nat.add_zero, happend, Nat.add_comm L.blockSize, ← Nat.succ_mul] at hrest
      exact hfirst.bind hrest v hv

theorem splice_replicate {f : Nat → UInt8} {start count o : Nat} (hlo : start ≤ o)
    (hhi : o < start + count) : splice f start (List.replicate count 0) o = 0 := by
  rw [splice, if_neg (by omega), List.getD_eq_getElem?_getD,
    List.getElem?_replicate_of_lt (by omega)]
  rfl

theorem testBit_zero {k : Nat} : testBit 0 k = false := by
  unfold testBit
  rw [UInt8.zero_and]
  rfl

theorem bitsAt_zero {f : Nat → UInt8} {start count : Nat}
    (h : ∀ i, i < count → f (start + i / 8) = 0) : bitsAt f start count = fun _ => false := by
  funext i
  by_cases hi : i < count
  · rw [bitsAt_of_lt _ _ hi, h i hi, testBit_zero]
  · exact bitsAt_of_ge _ _ (Nat.not_lt.mp hi)

/-- Zeroes over the blocks of both bitmaps clear all bits. -/
theorem does_zeroBlocks (hL : L.Valid) (hstart : L.inodeBitmapStart = 1) {count : Nat}
    (hcount : 1 + count = L.inodeTableStart) :
    Does L V (zeroBlocks count 1 : NyfsM D _) (.ok ())
      { V with blockBit := fun _ => false, inodeBit := fun _ => false } := by
  have hsize := hL.blockSize_ge
  have hsuper := hL.superblock_le
  have hib := hL.inodeBitmap_le
  have hbb := hL.blockBitmap_le
  have hit := hL.inodeTable_le
  have hbounds := hL.bitmap_bounds.2.2.2.2
  rw [hstart, Nat.one_mul] at hib
  have hend : L.blockSize + count * L.blockSize = L.inodeTableStart * L.blockSize := by
    rw [← hcount, Nat.add_mul, Nat.one_mul]
  have hlen : (List.replicate (count * L.blockSize) (0 : UInt8)).length = count * L.blockSize :=
    List.length_replicate
  rintro S rfl
  refine ⟨_, ?_, runs_zeroBlocks (by omega) (by rw [hcount]; omega)⟩
  rw [Nat.one_mul]
  ext1
  · refine bitsAt_zero (fun i hi => splice_replicate (by omega) (by omega))
  · refine bitsAt_zero (fun i hi => ?_)
    rw [hstart, Nat.one_mul]
    exact splice_replicate (by omega) (by omega)
  · exact inodesAt_splice_of_disjoint (Or.inl (by omega))
  · exact blocksAt_splice_of_le (by omega)
  · rfl
  · rfl

theorem does_markBlocks (hL : L.Valid) {count i : Nat} (hle : i + count ≤ L.totalBlocks) :
    Does L V (markBlocks L.allocMetaStart count i : NyfsM D _) (.ok ())
      { V with blockBit := mark V.blockBit (List.range' i count) } := by
  induction count generalizing V i with
  | zero =>
      rw [show List.range' i 0 = [] from rfl, mark_nil]
      exact Does.pure ()
  | succ n ih =>
      have hrest := ih (V := { V with blockBit := Function.update V.blockBit i true }) (i := i + 1)
        (by omega)
      have hbits : mark (Function.update V.blockBit i true) (List.range' (i + 1) n) =
          mark V.blockBit (List.range' i (n + 1)) := by
        funext b
        rw [List.range'_succ]
        unfold mark
        by_cases hb : b = i
        · subst hb
          simp
        · rw [Function.update_of_ne hb]
          simp [hb]
      dsimp only at hrest
      rw [hbits] at hrest
      exact (does_blockBitmapPut hL (by omega) true).bind hrest

theorem clearCount_mark_range {n count : Nat} (h : n ≤ count) :
    clearCount (mark (fun _ => false) (List.range' 0 n)) count = count - n := by
  have hbit : mark (fun _ => false) (List.range' 0 n) = fun b => decide (b < n) := by
    funext b
    simp [mark]
  rw [hbit]
  induction count with
  | zero =>
      rw [Nat.zero_sub]
      rfl
  | succ m ih =>
      rw [clearCount_succ]
      by_cases hn : n = m + 1
      · have hall : clearCount (fun b => decide (b < n)) m = 0 := by
          rw [clearCount, List.countP_eq_zero]
          intro i hi
          rw [List.mem_range] at hi
          simp only [Bool.not_eq_true', decide_eq_false_iff_not]
          omega
        rw [hall, decide_eq_true (by omega), if_pos rfl]
        omega
      · rw [ih (by omega), decide_eq_false (by omega), if_neg (by simp)]
        omega

/-! ## Parameters -/

/-- Parameters for which no computation of the layout overflows. -/
structure MkfsParams.Small (p : MkfsParams) : Prop where
  blocks : p.totalBlocks * 2 ^ p.blockSizeShift < 2 ^ 64
  inodes : p.inodes * 256 + 2 ^ p.blockSizeShift ≤ 2 ^ 64

/-- The layout of a format. -/
def MkfsParams.layout (p : MkfsParams) : Layout :=
  p.superblock.layout

theorem blocksFor_mul_ge {bytes size : Nat} (hsize : 0 < size) (h : bytes + size ≤ 2 ^ 64) :
    bytes ≤ blocksFor bytes size * size := by
  unfold blocksFor
  rw [Nat.mod_eq_of_lt (by omega)]
  have hdiv := Nat.div_add_mod (bytes + size - 1) size
  have hmod := Nat.mod_lt (bytes + size - 1) hsize
  have hle : (bytes + size - 1) / size * size ≤ max 1 ((bytes + size - 1) / size) * size :=
    Nat.mul_le_mul_right _ (Nat.le_max_right _ _)
  rw [Nat.mul_comm] at hdiv
  omega

theorem blocksFor_le {size : Nat} (bytes : Nat) (hsize : 512 ≤ size) : blocksFor bytes size ≤ 2 ^ 55 := by
  unfold blocksFor
  have hmod : (bytes + size - 1) % 2 ^ 64 < 2 ^ 64 := Nat.mod_lt _ (by decide)
  have hdiv : (bytes + size - 1) % 2 ^ 64 / size ≤ (bytes + size - 1) % 2 ^ 64 / 512 :=
    Nat.div_le_div_left hsize (by decide)
  omega

/-- A block size that a format accepts. -/
structure MkfsParams.ShiftOk (p : MkfsParams) : Prop where
  ge : nyfsBlockSizeShiftMin ≤ p.blockSizeShift
  le : p.blockSizeShift ≤ nyfsBlockSizeShiftMax

theorem MkfsParams.ShiftOk.size (h : p.ShiftOk) :
    512 ≤ 2 ^ p.blockSizeShift ∧ 2 ^ p.blockSizeShift ≤ 65536 ∧ 2 ^ p.blockSizeShift % 8 = 0 := by
  have hge : 9 ≤ p.blockSizeShift := h.ge
  have hle : p.blockSizeShift ≤ 16 := h.le
  refine ⟨?_, ?_, ?_⟩
  · calc 512 = 2 ^ 9 := by norm_num
      _ ≤ 2 ^ p.blockSizeShift := Nat.pow_le_pow_right (by decide) hge
  · calc 2 ^ p.blockSizeShift ≤ 2 ^ 16 := Nat.pow_le_pow_right (by decide) hle
      _ = 65536 := by norm_num
  · obtain ⟨k, hk⟩ := Nat.exists_eq_add_of_le (show 3 ≤ p.blockSizeShift by omega)
    rw [hk, Nat.pow_add, show (2 : Nat) ^ 3 = 8 from rfl]
    exact Nat.mul_mod_right 8 _

/-- The block numbers of the regions do not overflow. -/
theorem MkfsParams.ShiftOk.starts (h : p.ShiftOk) :
    p.superblock.allocMetaStart = 1 + p.inodeBitmapBlocks ∧
      p.superblock.inodeTableStart = 1 + p.inodeBitmapBlocks + p.blockBitmapBlocks ∧
      p.firstDataBlock =
        1 + p.inodeBitmapBlocks + p.blockBitmapBlocks + p.inodeTableBlocks := by
  obtain ⟨hge, -, -⟩ := h.size
  have hib : p.inodeBitmapBlocks ≤ 2 ^ 55 := blocksFor_le _ hge
  have hbb : p.blockBitmapBlocks ≤ 2 ^ 55 := blocksFor_le _ hge
  have hit : p.inodeTableBlocks ≤ 2 ^ 55 := blocksFor_le _ hge
  have halloc : p.superblock.allocMetaStart = 1 + p.inodeBitmapBlocks :=
    Nat.mod_eq_of_lt (by omega)
  have htable : p.superblock.inodeTableStart = 1 + p.inodeBitmapBlocks + p.blockBitmapBlocks := by
    change (p.superblock.allocMetaStart + p.blockBitmapBlocks) % 2 ^ 64 = _
    rw [halloc, Nat.mod_eq_of_lt (by omega)]
  refine ⟨halloc, htable, ?_⟩
  unfold MkfsParams.firstDataBlock
  rw [htable, Nat.mod_eq_of_lt (by omega)]

/-- A volume whose bytes have 64-bit offsets has fewer blocks than that. -/
theorem MkfsParams.ShiftOk.totalBlocks_lt (h : p.ShiftOk)
    (hbytes : p.totalBlocks * 2 ^ p.blockSizeShift < 2 ^ 64) : p.totalBlocks < 2 ^ 55 := by
  obtain ⟨hge, -, -⟩ := h.size
  have hle : p.totalBlocks * 512 ≤ p.totalBlocks * 2 ^ p.blockSizeShift :=
    Nat.mul_le_mul_left _ hge
  omega

/-- The block bitmap has a bit for every block. -/
theorem MkfsParams.ShiftOk.blockBitmap_ge (h : p.ShiftOk)
    (hbytes : p.totalBlocks * 2 ^ p.blockSizeShift < 2 ^ 64) :
    (p.totalBlocks + 7) / 8 ≤ p.blockBitmapBlocks * 2 ^ p.blockSizeShift := by
  obtain ⟨hge, hle, -⟩ := h.size
  have hblocks := h.totalBlocks_lt hbytes
  unfold MkfsParams.blockBitmapBlocks
  rw [Nat.mod_eq_of_lt (show p.totalBlocks + 7 < 2 ^ 64 by omega)]
  exact blocksFor_mul_ge (by omega) (by omega)

theorem MkfsParams.Small.bounds (h : p.Small) (hshift : p.ShiftOk) :
    p.inodes < 2 ^ 56 ∧ p.totalBlocks < 2 ^ 55 := by
  obtain ⟨hge, -, -⟩ := hshift.size
  have hinodes := h.inodes
  exact ⟨by omega, hshift.totalBlocks_lt h.blocks⟩

/-- The blocks of the metadata have room for it. -/
theorem MkfsParams.Small.metadata (h : p.Small) (hshift : p.ShiftOk) :
    (p.inodes + 7) / 8 ≤ p.inodeBitmapBlocks * 2 ^ p.blockSizeShift ∧
      (p.totalBlocks + 7) / 8 ≤ p.blockBitmapBlocks * 2 ^ p.blockSizeShift ∧
      p.inodes * 256 ≤ p.inodeTableBlocks * 2 ^ p.blockSizeShift := by
  obtain ⟨hge, hle, -⟩ := hshift.size
  obtain ⟨hinodes, -⟩ := h.bounds hshift
  have hbytes := h.inodes
  refine ⟨?_, hshift.blockBitmap_ge h.blocks, ?_⟩
  · unfold MkfsParams.inodeBitmapBlocks
    rw [Nat.mod_eq_of_lt (show p.inodes + 7 < 2 ^ 64 by omega)]
    exact blocksFor_mul_ge (by omega) (by omega)
  · unfold MkfsParams.inodeTableBlocks
    rw [Nat.mod_eq_of_lt (show p.inodes * 256 < 2 ^ 64 by omega)]
    exact blocksFor_mul_ge (by omega) (by omega)

/-- The layout of a format without the reductions. -/
theorem MkfsParams.Small.layout_eq (h : p.Small) (hshift : p.ShiftOk) :
    p.layout = ⟨2 ^ p.blockSizeShift, p.totalBlocks, p.inodes, 1, 1 + p.inodeBitmapBlocks,
      1 + p.inodeBitmapBlocks + p.blockBitmapBlocks,
      1 + p.inodeBitmapBlocks + p.blockBitmapBlocks + p.inodeTableBlocks⟩ ∧
    p.firstDataBlock =
      1 + p.inodeBitmapBlocks + p.blockBitmapBlocks + p.inodeTableBlocks := by
  obtain ⟨halloc, htable, hfirst⟩ := hshift.starts
  obtain ⟨hge, hle, -⟩ := hshift.size
  have hbytes := h.inodes
  have hblocks : max 1 ((p.inodes * 256 + 2 ^ p.blockSizeShift - 1) / 2 ^ p.blockSizeShift) =
      p.inodeTableBlocks := by
    unfold MkfsParams.inodeTableBlocks blocksFor
    rw [Nat.mod_eq_of_lt (show p.inodes * 256 < 2 ^ 64 by omega), Nat.mod_eq_of_lt (by omega)]
  refine ⟨?_, hfirst⟩
  change (⟨2 ^ p.blockSizeShift, p.totalBlocks, p.inodes, 1, p.superblock.allocMetaStart,
    p.superblock.inodeTableStart, p.superblock.inodeTableStart +
      max 1 ((p.inodes * 256 + 2 ^ p.blockSizeShift - 1) / 2 ^ p.blockSizeShift)⟩ : Layout) = _
  rw [halloc, htable, hblocks]

theorem MkfsParams.inodes_pos (p : MkfsParams) : 0 < p.inodes := by
  unfold MkfsParams.inodes
  split
  next => exact lt_of_lt_of_le (by decide) (Nat.le_max_left _ _)
  next h => omega

/-- The layout of a format is valid. -/
theorem MkfsParams.Small.valid (h : p.Small) (hshift : p.ShiftOk)
    (hfits : p.firstDataBlock < p.totalBlocks) : p.layout.Valid := by
  obtain ⟨hlayout, hfirst⟩ := h.layout_eq hshift
  obtain ⟨hib, hbb, hit⟩ := h.metadata hshift
  obtain ⟨hge, hle, hmod⟩ := hshift.size
  rw [hlayout]
  refine ⟨hge, hle, hmod, ?_, ?_, ?_, ?_, ?_, h.blocks, p.inodes_pos⟩
  · dsimp only
    omega
  · dsimp only
    rw [Nat.add_mul]
    omega
  · dsimp only
    rw [Nat.add_mul (1 + p.inodeBitmapBlocks)]
    omega
  · dsimp only
    rw [Nat.add_mul (1 + p.inodeBitmapBlocks + p.blockBitmapBlocks)]
    omega
  · dsimp only
    omega

/-! ## The formatted volume -/

/-- The block bitmap that covers the metadata only. -/
def metadataBits (L : Layout) : Nat → Bool :=
  mark (fun _ => false) (List.range' 0 L.firstDataBlock)

/-- The record of the root directory with an empty table. -/
def rootRecord (root : Nat) : Inode :=
  sealInode nyfsRootIno { rootInode with dirHashRoot := root, dirEntryCount := 0 }

/-- A volume as a format leaves it: the root directory is the only inode, and it is empty.  The
blocks that it has not taken hold what the device held before. -/
structure Fresh (L : Layout) (image : Nat → UInt8) (V : View) (nodes : Nat → Node) : Prop where
  inventory : Inventory L V nodes
  inodeBit : V.inodeBit = Function.update (Function.update (fun _ => false) 0 true) nyfsRootIno true
  root : V.inode nyfsRootIno = rootRecord (V.inode nyfsRootIno).dirHashRoot
  empty : (nodes nyfsRootIno).buckets = fun _ => []
  free : (nodes nyfsRootIno).free = 160
  data : (nodes nyfsRootIno).data = []
  table : ∃ d ls t, planOne L (metadataBits L) none = some (d, ls, t) ∧
    dataBlocks (nodes nyfsRootIno).table = [d] ∧
    V.blockBit = mark (metadataBits L) (d :: ls) ∧
    ∀ b, b ∉ d :: ls → V.block b = blocksAt L image b
  used : ∀ b, V.blockBit b = true ↔ b < L.firstDataBlock ∨ b ∈ (nodes nyfsRootIno).blocks

theorem rootInode_eq : rootInode = newInode nyfsRootIno nyfsInoTypeDir 0o755 ⟨0, 0⟩ := by
  decide

/-- The inodes of a volume with nothing but the root directory. -/
theorem Lengthens.onlyRoot {image : Nat → UInt8} {root : Nat} {segs : List Segment} {d : Nat}
    {ls : List Nat} {t : Tail} (hL : L.Valid)
    (hlong : Lengthens L V nyfsBlknoNone [] V' root segs (d :: ls) (chainBlocks segs))
    (hbits : V.blockBit = metadataBits L)
    (hinodes : V.inodeBit = Function.update (Function.update (fun _ => false) 0 true) nyfsRootIno true)
    (hcount : nyfsRootIno < L.inodeCount) (hblock : V.block = blocksAt L image)
    (hdir : Dir L V' root segs (fun _ => []) 160)
    (hplan : planOne L V.blockBit none = some (d, ls, t)) (hdata : dataBlocks segs = [d]) :
    (rootRecord root).Fits ∧ Fresh L image (V'.writeInode nyfsRootIno (rootRecord root))
      (fun _ => ⟨[], segs, fun _ => [], 160, []⟩) := by
  have hperm : (chainBlocks segs).Perm (d :: ls) := by
    have hperm := hlong.perm
    rwa [show chainBlocks ([] : List Segment) = [] from rfl, List.append_nil] at hperm
  have hblocks : (⟨[], segs, fun _ => [], 160, []⟩ : Node).blocks = chainBlocks segs := by
    simp [Node.blocks, Node.body, chainBlocks, listBlocks, dataBlocks]
  have hbit : V'.inodeBit = V.inodeBit := hlong.takes.inodeBit
  have hlive : ∀ i, Live L (V'.writeInode nyfsRootIno (rootRecord root)) i → i = nyfsRootIno := by
    intro i hi
    have hset : V'.inodeBit i = true := hi.set
    by_contra hne
    rw [hbit, hinodes, Function.update_of_ne hne, Function.update_of_ne hi.ne_zero] at hset
    cases hset
  have hholds : (⟨[], segs, fun _ => [], 160, []⟩ : Node).Holds L V' (rootRecord root) := by
    refine @holds_newDir _ _ _ _ ⟨0, 0⟩ 0o755 _ [] segs hL (by decide) ?_ ?_ ?_ hdir
    · exact ⟨Or.inl ⟨rfl, rfl⟩, Nat.zero_le _⟩
    · rw [rootInode_eq]
    · decide
  have hset : ∀ b ∈ chainBlocks segs, V'.blockBit b = true :=
    fun b hb => hlong.takes.blockBit_of_mem (hperm.mem_iff.mp hb)
  have hself : (V'.writeInode nyfsRootIno (rootRecord root)).inode nyfsRootIno = rootRecord root := by
    change Function.update V'.inode nyfsRootIno (rootRecord root) nyfsRootIno = _
    rw [Function.update_self]
  refine ⟨hholds.fits, ⟨⟨⟨hlong.takes.ready.writeInode _ _, ?_, ?_, ?_, ?_, ?_⟩, ⟨⟨?_, ?_⟩, ?_, ?_⟩⟩,
    ?_, ?_, rfl, rfl, rfl, ⟨d, ls, t, ?_, hdata, ?_, ?_⟩, ?_⟩⟩
  · intro i hi
    rw [hlive i hi, hself]
    exact sealInode_sealed _ _
  · intro i hi
    rw [hlive i hi, hself]
    exact hholds.congr (fun _ _ => rfl)
  · intro i _ b hb
    rw [hblocks] at hb
    exact hset b hb
  · intro i _
    rw [hblocks]
    exact hlong.stream.nodup
  · intro i j hi hj hne
    exact absurd ((hlive i hi).trans (hlive j hj).symm) hne
  · refine ⟨by decide, hcount, ?_⟩
    change V'.inodeBit nyfsRootIno = true
    rw [hbit, hinodes, Function.update_self]
  · rw [hself]
    rfl
  · intro i _ r hr
    cases hr
  · intro i j _ _ r hr
    cases hr
  · change V'.inodeBit = _
    rw [hbit, hinodes]
  · rw [hself]
    rfl
  · rw [← hbits]
    exact hplan
  · rw [← hbits]
    exact hlong.takes.mark_eq
  · intro b hb
    change V'.block b = _
    rw [hlong.takes.block b (fun hmem => hb (hperm.mem_iff.mp hmem)), hblock]
  · intro b
    rw [hblocks, hperm.mem_iff]
    change V'.blockBit b = true ↔ _
    rw [hlong.takes.mark_eq, hbits]
    simp [mark, metadataBits]

/-- The root directory is made, or the format fails. -/
theorem Ready.formatRoot {image : Nat → UInt8} (hL : L.Valid) (hR : Ready L V)
    (hbits : V.blockBit = metadataBits L)
    (hinodes : V.inodeBit = Function.update (fun _ => false) 0 true)
    (hblock : V.block = blocksAt L image) :
    ∃ r V', Does L V (Nyfs.formatRoot : NyfsM D _) r V' ∧
      (r = .ok () → ∃ nodes, Fresh L image V' nodes) ∧
      (nyfsRootIno < L.inodeCount → planOne L (metadataBits L) none ≠ none → r = .ok ()) := by
  have hzero : V.inodeBit 0 = true := by
    rw [hinodes, Function.update_self]
  have hone : V.inodeBit nyfsRootIno = false := by
    rw [hinodes, Function.update_of_ne (by decide)]
  have hfirst : firstClear V.inodeBit L.inodeCount 0 =
      if nyfsRootIno < L.inodeCount then some nyfsRootIno else none := by
    have hpos := hL.inodeCount_pos
    obtain ⟨n, hn⟩ := Nat.exists_eq_add_one_of_ne_zero (Nat.ne_of_gt hpos)
    rw [hn, firstClear, if_pos hzero]
    cases n with
    | zero => rfl
    | succ n =>
        have hone' : ¬V.inodeBit (0 + 1) = true := by
          rw [show (0 + 1) = nyfsRootIno from rfl, hone]
          decide
        rw [firstClear, if_neg hone', if_pos (by rw [nyfsRootIno]; omega)]
        rfl
  by_cases hcount : nyfsRootIno < L.inodeCount
  swap
  · rw [if_neg hcount] at hfirst
    refine ⟨_, V, (does_allocInode_full hL hfirst).bind_error, fun hok => ?_,
      fun hlt => absurd hlt hcount⟩
    cases hok
  rw [if_pos hcount] at hfirst
  have hready := hR.takeInode hL hcount hone
  obtain ⟨res, dir', segs, V₂, taken, hdoes, hlong, hout⟩ :=
    hready.dirhashCreate (D := D) hL rootInode
  rcases hout with ⟨rfl, hdir', hdir, d, ls, t, hplan, hdata, rfl⟩ | ⟨rfl, -, hfull⟩
  · have hseal : sealInode nyfsRootIno dir' = rootRecord dir'.dirHashRoot := by
      conv_lhs => rw [hdir']
      rfl
    obtain ⟨hfits, hfresh⟩ := hlong.onlyRoot hL hbits
      (by rw [← hinodes]; rfl) hcount hblock hdir hplan hdata
    rw [← hseal] at hfits hfresh
    refine ⟨.ok (), _, (does_allocInode hL hfirst).bind ?_, fun _ => ⟨_, hfresh⟩, fun _ _ => rfl⟩
    rw [if_neg (by simp)]
    exact hdoes.bind ((does_writeInode hL (by decide) hcount hfits).bind does_flushSuperblock)
  · refine ⟨.error (.status .NdiskFull), V₂, (does_allocInode hL hfirst).bind ?_, fun hok => ?_,
      fun _ hroom => absurd ?_ hroom⟩
    · rw [if_neg (by simp)]
      exact hdoes.bind (Does.fail _)
    · cases hok
    · rw [← hbits]
      exact hfull

/-- The bitmaps agree with the counters once they are written. -/
theorem MkfsParams.Small.formatBitmaps (h : p.Small) (hshift : p.ShiftOk)
    (hfits : p.firstDataBlock < p.totalBlocks)
    (hblocks : V.freeBlocks = p.totalBlocks - p.firstDataBlock) (hinodes : V.freeInodes = p.inodes) :
    ∃ V', Does p.layout V (Nyfs.formatBitmaps p : NyfsM D _) (.ok ()) V' ∧ Ready p.layout V' ∧
      V'.blockBit = metadataBits p.layout ∧
      V'.inodeBit = Function.update (fun _ => false) 0 true ∧ V'.block = V.block := by
  have hL := h.valid hshift hfits
  obtain ⟨hlayout, hfirst⟩ := h.layout_eq hshift
  have hstart : p.layout.inodeBitmapStart = 1 := by rw [hlayout]
  have htable : 1 + (p.inodeBitmapBlocks + p.blockBitmapBlocks) = p.layout.inodeTableStart := by
    rw [hlayout, Nat.add_assoc]
  have halloc : p.superblock.allocMetaStart = p.layout.allocMetaStart := rfl
  have hdata : p.firstDataBlock = p.layout.firstDataBlock := by rw [hfirst, hlayout]
  have htotal : p.layout.totalBlocks = p.totalBlocks := rfl
  have hcount : p.layout.inodeCount = p.inodes := rfl
  have hpos := p.inodes_pos
  refine ⟨_, (does_zeroBlocks hL hstart htable).bind ((does_markBlocks hL (by omega)).bind
    ((does_inodeBitmapPut hL (by omega) true).bind (does_adjustFreeInodes wrapPred))), ⟨?_, ?_, ?_, ?_⟩,
    ?_, rfl, rfl⟩
  · intro b hb
    simp [mark]
    omega
  · dsimp only
    rw [hblocks, htotal, clearCount_mark_range hfits.le]
  · have hset : clearCount (Function.update (fun _ => false) 0 true) p.inodes + 1 =
        clearCount (fun _ => false) p.inodes := clearCount_set hpos rfl
    have hall : clearCount (fun _ => false) p.inodes = p.inodes := by
      have hnone := clearCount_mark_range (Nat.zero_le p.inodes)
      rw [show List.range' 0 0 = [] from rfl, mark_nil, Nat.sub_zero] at hnone
      exact hnone
    dsimp only
    rw [hcount, hinodes]
    obtain ⟨n, hn⟩ := Nat.exists_eq_add_one_of_ne_zero (Nat.ne_of_gt hpos)
    have hlt := (h.bounds hshift).1
    rw [hall] at hset
    rw [hn] at hset hlt ⊢
    rw [wrapPred_succ (by omega)]
    omega
  · dsimp only
    rw [Function.update_self]
  · dsimp only
    rw [hdata]
    rfl

/-! ## Opening -/

theorem Superblock.fits_iff (sb : Superblock) :
    sb.Fits ↔ sb.core.Fits ∧ sb.freeBlocks < 2 ^ 64 ∧ sb.freeInodeCount < 2 ^ 64 ∧
      sb.checksum < 2 ^ 32 := by
  have h8 : (256 : Nat) ^ 8 = 2 ^ 64 := by norm_num
  have h4 : (256 : Nat) ^ 4 = 2 ^ 32 := by norm_num
  unfold Superblock.Fits Superblock.fields Superblock.core
  simp only [List.forall_mem_cons, List.not_mem_nil, false_imp_iff, implies_true, and_true, h8, h4]
  have hzero : (0 : Nat) < 2 ^ 64 := by decide
  have hzero' : (0 : Nat) < 2 ^ 32 := by decide
  tauto

theorem MkfsParams.Small.core_fits (h : p.Small) (hshift : p.ShiftOk) : p.superblock.core.Fits := by
  have h8 : (256 : Nat) ^ 8 = 2 ^ 64 := by norm_num
  obtain ⟨hinodes, hblocks⟩ := h.bounds hshift
  have hbb : p.blockBitmapBlocks ≤ 2 ^ 55 := blocksFor_le _ hshift.size.1
  have hle : p.blockSizeShift ≤ 16 := hshift.le
  have hlabel : Bytes.leNat (p.label.take 31) < 256 ^ 32 :=
    lt_of_lt_of_le (leNat_take_lt _ 31) (Nat.pow_le_pow_right (by decide) (by decide))
  have hmod : ∀ n, n % 2 ^ 64 < 2 ^ 64 := fun n => Nat.mod_lt n (by decide)
  unfold Superblock.Fits Superblock.fields Superblock.core MkfsParams.superblock
  simp only [List.forall_mem_cons, List.not_mem_nil, false_imp_iff, implies_true, and_true, h8]
  refine ⟨by decide, by decide, by decide, by omega, by decide, by decide, hlabel, by omega, by decide,
    hmod _, by omega, by decide, hmod _, by omega, by decide, by decide, by decide, by decide,
    by decide, by decide, by decide, by decide, by decide, by decide, by decide⟩

/-- A superblock with the mount counter at zero. -/
def Superblock.uncounted (sb : Superblock) : Superblock :=
  { sb.core with mountCount := 0 }

/-- The superblock of a volume that has come from a format and has been mounted any number of times
passes the tests of opening. -/
theorem checkSuperblock_of_uncounted {sb : Superblock} (hshift : p.ShiftOk)
    (huncounted : sb.uncounted = p.superblock.core) (hsealed : sealSuperblock sb = sb) :
    checkSuperblock sb = none := by
  have hmagic : sb.magic = nyfsMagic :=
    show sb.uncounted.magic = nyfsMagic by rw [huncounted]; rfl
  have hversion : sb.version = nyfsVersion :=
    show sb.uncounted.version = nyfsVersion by rw [huncounted]; rfl
  have hsize : sb.superblockSize = 256 :=
    show sb.uncounted.superblockSize = 256 by rw [huncounted]; rfl
  have hblock : sb.blockSizeShift = p.blockSizeShift :=
    show sb.uncounted.blockSizeShift = p.blockSizeShift by rw [huncounted]; rfl
  have hge := hshift.ge
  have hle := hshift.le
  unfold checkSuperblock
  rw [if_neg (by rw [hmagic, hversion, hsize]; simp), if_neg (by rw [hblock]; omega),
    if_neg (by rw [hsealed]; simp)]

theorem uncounted_of_core {sb : Superblock} (hcore : sb.core = p.superblock.core) :
    sb.uncounted = p.superblock.core := by
  rw [Superblock.uncounted, hcore]
  rfl

/-- The superblock of a volume that has come from a format passes the tests of opening. -/
theorem checkSuperblock_of_core {sb : Superblock} (hshift : p.ShiftOk)
    (hcore : sb.core = p.superblock.core) (hsealed : sealSuperblock sb = sb) :
    checkSuperblock sb = none :=
  checkSuperblock_of_uncounted hshift (uncounted_of_core hcore) hsealed

/-- Reading the superblock of a mounted volume back. -/
theorem Mounted.superblock_read (hv : Mounted L v) (hfits : v.sb.Fits) :
    decodeSuperblock (bytesAt (ReliableDevice.content v.disk) 0 256) = v.sb := by
  rw [hv.superblock, decodeSuperblock_encode hfits]

theorem View.freeCounts (hL : L.Valid) (hR : Ready L v.view) :
    v.sb.freeBlocks < 2 ^ 64 ∧ v.sb.freeInodeCount < 2 ^ 64 := by
  have hblocks : v.sb.freeBlocks = clearCount v.view.blockBit L.totalBlocks := hR.freeBlocks
  have hinodes : v.sb.freeInodeCount = clearCount v.view.inodeBit L.inodeCount := hR.freeInodes
  have := clearCount_le v.view.blockBit L.totalBlocks
  have := clearCount_le v.view.inodeBit L.inodeCount
  have := hL.totalBlocks_lt
  have := hL.inodeCount_lt
  constructor
  · omega
  · omega

/-- The volume that {lit}`nyfs_volume_open` or {lit}`nyfs_mount` makes of a device, for
writing. -/
inductive Opens (d : D) (v : Volume D) : Prop
  | host (h : volumeOpen d true = (.ok (), v))
  | kernel (h : mountVolume d true = (.ok (), v))

/-- The host opens a device that holds a mounted volume and counts the mount. -/
theorem Mounted.volumeOpen_run {w : Volume D} (hw : Mounted L w) (hfits : w.sb.Fits)
    (hcheck : checkSuperblock w.sb = none) :
    ∃ v, volumeOpen w.disk true = (.ok (), v) ∧ Shows L v w.store ∧
      v.sb = sealSuperblock { w.sb with mountCount := (w.sb.mountCount + 1) % 2 ^ 64 } := by
  have hshift : 2 ^ w.sb.blockSizeShift = L.blockSize := by
    rw [← hw.layout]
    rfl
  obtain ⟨v, hrun, hshows, hsb⟩ := flush_mounts (L := L)
    (v := ⟨w.disk, true, { w.sb with mountCount := (w.sb.mountCount + 1) % 2 ^ 64 },
      2 ^ w.sb.blockSizeShift⟩) hw.layout hshift rfl
  refine ⟨v, ?_, hshows, hsb⟩
  rw [← hrun, volumeOpen]
  dsimp only
  rw [Eff.bind_ok (rawRead_eq _ 0 256), Nat.zero_mod, hw.superblock_read hfits, hcheck]
  rfl

/-- The host opens a device that holds a mounted volume. -/
theorem Mounted.volumeOpen_eq {w : Volume D} (hw : Mounted L w) (hfits : w.sb.Fits)
    (hcheck : checkSuperblock w.sb = none) :
    ∃ v, volumeOpen w.disk true = (.ok (), v) ∧ Shows L v w.store := by
  obtain ⟨v, hrun, hshows, -⟩ := hw.volumeOpen_run hfits hcheck
  exact ⟨v, hrun, hshows⟩

/-- The kernel mounts a device that holds a mounted volume. -/
theorem Mounted.mountVolume_eq {w : Volume D} (hw : Mounted L w) (hfits : w.sb.Fits)
    (hcheck : checkSuperblock w.sb = none) :
    ∃ v, mountVolume w.disk true = (.ok (), v) ∧ v.sb = w.sb ∧ Shows L v w.store := by
  have hshift : 2 ^ w.sb.blockSizeShift = L.blockSize := by
    rw [← hw.layout]
    rfl
  refine ⟨⟨w.disk, true, w.sb, 2 ^ w.sb.blockSizeShift⟩, ?_, rfl,
    ⟨hw.layout, hshift, rfl, rfl, rfl, hw.superblock, hw.sealed, fun _ _ => rfl⟩⟩
  rw [mountVolume]
  dsimp only
  rw [Eff.bind_ok (rawRead_eq _ 0 256), Nat.zero_mod, hw.superblock_read hfits, hcheck]
  rfl

/-- A device that holds a mounted volume opens to one with the same view. -/
theorem Mounted.opens {w : Volume D} (hL : L.Valid) (hw : Mounted L w) (hfits : w.sb.Fits)
    (hcheck : checkSuperblock w.sb = none) (hopen : Opens w.disk v) :
    Mounted L v ∧ v.view = w.view := by
  have hshows : Shows L v w.store := by
    cases hopen with
    | host h =>
        obtain ⟨v', heq, hshows⟩ := hw.volumeOpen_eq hfits hcheck
        rw [heq] at h
        obtain ⟨-, rfl⟩ := Prod.mk.inj h
        exact hshows
    | kernel h =>
        obtain ⟨v', heq, -, hshows⟩ := hw.mountVolume_eq hfits hcheck
        rw [heq] at h
        obtain ⟨-, rfl⟩ := Prod.mk.inj h
        exact hshows
  refine ⟨hshows.mounted, ?_⟩
  rw [hshows.view_eq hL, Volume.view, hw.layout]

/-- The run of a format on a device that passes the tests. -/
theorem MkfsParams.Small.format_run (h : p.Small) (hshift : p.ShiftOk)
    (hfits : p.firstDataBlock < p.totalBlocks) (d : D) :
    ∃ r w, formatVolume p (⟨d, true, p.superblock, 2 ^ p.blockSizeShift⟩ : Volume D) = (r, w) ∧
      Mounted p.layout w ∧ w.sb.core = p.superblock.core ∧
      (r = .ok () → ∃ nodes, Fresh p.layout (ReliableDevice.content d) w.view nodes) ∧
      (nyfsRootIno < p.inodes → planOne p.layout (metadataBits p.layout) none ≠ none →
        r = .ok ()) := by
  have hL := h.valid hshift hfits
  obtain ⟨w₁, hflush, hshows, hsb⟩ := flush_mounts (L := p.layout)
    (v := (⟨d, true, p.superblock, 2 ^ p.blockSizeShift⟩ : Volume D)) rfl rfl rfl
  have hview := hshows.view_eq hL
  obtain ⟨V₂, hbitmaps, hready, hbits, hinodes, hblock⟩ := h.formatBitmaps (D := D) (V := w₁.view)
    hshift hfits (by rw [hview]; rfl) (by rw [hview]; rfl)
  obtain ⟨w₂, hrun₂, hmounted₂, hview₂, hcore₂⟩ := hbitmaps.run hL hshows.mounted rfl
  obtain ⟨r, V₃, hroot, hfresh, hok⟩ := hready.formatRoot (D := D)
    hL hbits hinodes (by rw [hblock, hview]; rfl)
  obtain ⟨w₃, hrun₃, hmounted₃, hview₃, hcore₃⟩ := hroot.run hL hmounted₂ hview₂
  refine ⟨r, w₃, ?_, hmounted₃, ?_, ?_, hok⟩
  · rw [formatVolume, Eff.bind_ok hflush, Eff.bind_ok hrun₂, hrun₃]
  · rw [hcore₃, hcore₂, hsb]
    rfl
  · rw [hview₃]
    exact hfresh

/-- The tests of {lit}`nyfs_format` on its parameters. -/
structure MkfsParams.Accepted (p : MkfsParams) : Prop where
  shift : p.ShiftOk
  enough : 64 ≤ p.totalBlocks
  fits : p.firstDataBlock < p.totalBlocks

theorem nyfsFormat_eq (d : D) :
    (∃ e, nyfsFormat d p = (.error (.status e), d)) ∧ ¬p.Accepted ∨
      p.Accepted ∧ nyfsFormat d p =
        ((formatVolume p (⟨d, true, p.superblock, 2 ^ p.blockSizeShift⟩ : Volume D)).1,
          (formatVolume p (⟨d, true, p.superblock, 2 ^ p.blockSizeShift⟩ : Volume D)).2.disk) := by
  unfold nyfsFormat
  split
  next hbad =>
    refine Or.inl ⟨⟨_, rfl⟩, fun hyes => ?_⟩
    have := hyes.shift.ge
    have := hyes.shift.le
    omega
  next hshift =>
    split
    next hbad =>
      refine Or.inl ⟨⟨_, rfl⟩, fun hyes => ?_⟩
      have := hyes.enough
      omega
    next henough =>
      split
      next hbad =>
        refine Or.inl ⟨⟨_, rfl⟩, fun hyes => ?_⟩
        have := hyes.fits
        omega
      next hfits => exact Or.inr ⟨⟨⟨by omega, by omega⟩, by omega, by omega⟩, rfl⟩

/-- What opening a formatted device needs. -/
theorem Fresh.opens {w : Volume D} {image : Nat → UInt8} {nodes : Nat → Node} (h : p.Small)
    (haccepted : p.Accepted) (hw : Mounted p.layout w) (hcore : w.sb.core = p.superblock.core)
    (hfresh : Fresh p.layout image w.view nodes) :
    w.sb.Fits ∧ checkSuperblock w.sb = none := by
  have hL := h.valid haccepted.shift haccepted.fits
  obtain ⟨hblocks, hinodes⟩ := View.freeCounts hL hfresh.inventory.ready
  constructor
  · rw [Superblock.fits_iff, hcore]
    refine ⟨h.core_fits haccepted.shift, hblocks, hinodes, ?_⟩
    rw [← hw.sealed]
    exact nyfsCrc32_lt _
  · exact checkSuperblock_of_core haccepted.shift hcore hw.sealed

/-- A formatted device holds a fresh volume. -/
theorem format_leaves (h : p.Small) {d d' : D} (hformat : nyfsFormat d p = (.ok (), d')) :
    p.Accepted ∧ ∃ w : Volume D, w.disk = d' ∧ Mounted p.layout w ∧
      w.sb.core = p.superblock.core ∧
        ∃ nodes, Fresh p.layout (ReliableDevice.content d) w.view nodes := by
  rcases nyfsFormat_eq (p := p) d with ⟨⟨e, he⟩, -⟩ | ⟨haccepted, heq⟩
  · rw [he] at hformat
    cases hformat
  obtain ⟨r, w, hrun, hw, hcore, hok, -⟩ := h.format_run haccepted.shift haccepted.fits d
  rw [heq, hrun] at hformat
  obtain ⟨rfl, hdisk⟩ := Prod.mk.inj hformat
  exact ⟨haccepted, w, hdisk, hw, hcore, hok rfl⟩

/-- A formatted device opens to a volume with an inventory. -/
theorem formatted (h : p.Small) {d d' : D} (hformat : nyfsFormat d p = (.ok (), d'))
    (hopen : Opens d' v) :
    p.layout.Valid ∧ Mounted p.layout v ∧
      ∃ nodes, Fresh p.layout (ReliableDevice.content d) v.view nodes := by
  obtain ⟨haccepted, w, rfl, hw, hcore, nodes, hfresh⟩ := format_leaves h hformat
  have hL := h.valid haccepted.shift haccepted.fits
  obtain ⟨hfits, hcheck⟩ := hfresh.opens h haccepted hw hcore
  obtain ⟨hv, hview⟩ := hw.opens hL hfits hcheck hopen
  exact ⟨hL, hv, nodes, by rw [hview]; exact hfresh⟩

/-- A device with room for the metadata and the root directory can be formatted and opened. -/
theorem format_succeeds (h : p.Small) (haccepted : p.Accepted) (hinodes : nyfsRootIno < p.inodes)
    (hroom : planOne p.layout (metadataBits p.layout) none ≠ none) (d : D) :
    ∃ d' v, nyfsFormat d p = (.ok (), d') ∧ volumeOpen d' true = (.ok (), v) := by
  rcases nyfsFormat_eq (p := p) d with ⟨-, hno⟩ | ⟨-, heq⟩
  · exact absurd haccepted hno
  obtain ⟨r, w, hrun, hw, hcore, hok, hsucceeds⟩ :=
    h.format_run haccepted.shift haccepted.fits d
  obtain rfl := hsucceeds hinodes hroom
  obtain ⟨nodes, hfresh⟩ := hok rfl
  obtain ⟨hfits, hcheck⟩ := hfresh.opens h haccepted hw hcore
  obtain ⟨v, hopen, -⟩ := hw.volumeOpen_eq hfits hcheck
  exact ⟨w.disk, v, by rw [heq, hrun], hopen⟩

end Nyfs
end Nyxis
