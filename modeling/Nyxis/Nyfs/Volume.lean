import Nyxis.Lib.Bitmap
import Nyxis.Nyfs.Disk

/-!
# NyFS volumes

Raw I/O, the two bitmap allocators and the inode table.  The functions have the same
text in the kernel driver {lit}`nyfs.c` and in the host library {lit}`nyfs_core.c`, so
one definition stands for both.

A volume lies on a device whose reads and writes may fail.  Offsets and counters are
64-bit numbers; loops that follow links on the disk carry the fuel
{lit}`linkFuel`.
-/

namespace Nyxis
namespace Nyfs

open Bitmap

/-- The disk under a volume: {lit}`nyfs_disk_read_fn` and {lit}`nyfs_disk_write_fn` of the
kernel, {lit}`pread` and {lit}`pwrite` on the host. -/
class Device (D : Type) where
  read : D → (offset size : Nat) → Except Nstatus (List UInt8) × D
  write : D → (offset : Nat) → List UInt8 → Except Nstatus Unit × D

/-- {lit}`nyfs_volume_t`.  The kernel tests {lit}`write != NULL` where the host tests
{lit}`writable`. -/
structure Volume (D : Type) where
  disk : D
  writable : Bool
  sb : Superblock
  blockSize : Nat

/-- A call on a volume. -/
abbrev NyfsM (D : Type) := Eff Stop (Volume D)

/-- The number of links a loop follows before it is taken to go on for ever.  There are
no more block numbers or offsets than this. -/
def linkFuel : Nat := 2 ^ 64

variable {D : Type} [Device D]

/-! ## Raw I/O -/

/-- {lit}`nyfs_raw_read`. -/
def rawRead (offset size : Nat) : NyfsM D (List UInt8) :=
  fun v =>
    match Device.read v.disk (offset % 2 ^ 64) size with
    | (.ok bytes, d) => (.ok bytes, { v with disk := d })
    | (.error e, d) => (.error (.status e), { v with disk := d })

/-- {lit}`nyfs_raw_write`. -/
def rawWrite (offset : Nat) (bytes : List UInt8) : NyfsM D Unit :=
  fun v =>
    if v.writable then
      match Device.write v.disk (offset % 2 ^ 64) bytes with
      | (.ok (), d) => (.ok (), { v with disk := d })
      | (.error e, d) => (.error (.status e), { v with disk := d })
    else
      (.error (.status .NreadOnly), v)

/-! ## Bitmaps -/

/-- {lit}`nyfs_bitmap_get`. -/
def bitmapGet (regionStartBlock bitIndex : Nat) : NyfsM D Bool := do
  let bs ← Eff.gets Volume.blockSize
  let bytes ← rawRead (regionStartBlock * bs + bitIndex / 8) 1
  pure (testBit (bytes.headD 0) (bitIndex % 8))

/-- {lit}`nyfs_bitmap_put`. -/
def bitmapPut (regionStartBlock bitIndex : Nat) (value : Bool) : NyfsM D Unit := do
  let bs ← Eff.gets Volume.blockSize
  let bytes ← rawRead (regionStartBlock * bs + bitIndex / 8) 1
  rawWrite (regionStartBlock * bs + bitIndex / 8) [putBit (bytes.headD 0) (bitIndex % 8) value]

/-- The superblock with its checksum. -/
def sealSuperblock (sb : Superblock) : Superblock :=
  { sb with checksum := nyfsCrc32 (encodeSuperblock { sb with checksum := 0 }) }

/-- {lit}`nyfs_flush_superblock`. -/
def flushSuperblock : NyfsM D Unit := do
  Eff.modify (fun v => { v with sb := sealSuperblock v.sb })
  let sb ← Eff.gets Volume.sb
  rawWrite 0 (encodeSuperblock sb)

/-! ## Allocators -/

/-- The scan of {lit}`nyfs_alloc_block` and {lit}`nyfs_alloc_inode` for a clear bit. -/
def findClear (regionStartBlock : Nat) : (count i : Nat) → NyfsM D (Option Nat)
  | 0, _ => pure none
  | count + 1, i => do
      let taken ← bitmapGet regionStartBlock i
      if taken then findClear regionStartBlock count (i + 1) else pure (some i)

/-- One more of a 64-bit counter. -/
def wrapSucc (n : Nat) : Nat :=
  (n + 1) % 2 ^ 64

/-- One less of a 64-bit counter. -/
def wrapPred (n : Nat) : Nat :=
  (n + (2 ^ 64 - 1)) % 2 ^ 64

/-- Change the free counter of the blocks and flush the superblock. -/
def adjustFreeBlocks (f : Nat → Nat) : NyfsM D Unit := do
  Eff.modify (fun v => { v with sb := { v.sb with freeBlocks := f v.sb.freeBlocks } })
  flushSuperblock

/-- Change the free counter of the inodes and flush the superblock. -/
def adjustFreeInodes (f : Nat → Nat) : NyfsM D Unit := do
  Eff.modify (fun v => { v with sb := { v.sb with freeInodeCount := f v.sb.freeInodeCount } })
  flushSuperblock

/-- {lit}`nyfs_alloc_block`. -/
def allocBlock : NyfsM D Nat := do
  let start ← Eff.gets (fun v => v.sb.allocMetaStart)
  let count ← Eff.gets (fun v => v.sb.totalBlocks)
  let found ← findClear start count 0
  match found with
  | none => failWith .NdiskFull
  | some i =>
      bitmapPut start i true
      adjustFreeBlocks wrapPred
      pure i

/-- {lit}`nyfs_free_block`. -/
def freeBlock (blkno : Nat) : NyfsM D Unit := do
  let start ← Eff.gets (fun v => v.sb.allocMetaStart)
  bitmapPut start blkno false
  adjustFreeBlocks wrapSucc

/-- {lit}`nyfs_alloc_inode`. -/
def allocInode : NyfsM D Nat := do
  let start ← Eff.gets (fun v => v.sb.inodeBitmapStart)
  let count ← Eff.gets (fun v => v.sb.inodeCount)
  let found ← findClear start count 0
  match found with
  | none => failWith .NoutOfMemory
  | some i =>
      bitmapPut start i true
      adjustFreeInodes wrapPred
      pure i

/-- {lit}`nyfs_free_inode`. -/
def freeInode (ino : Nat) : NyfsM D Unit := do
  let count ← Eff.gets (fun v => v.sb.inodeCount)
  if ino = nyfsInoNone ∨ count ≤ ino then
    failWith .NinvalidArg
  else
    let start ← Eff.gets (fun v => v.sb.inodeBitmapStart)
    bitmapPut start ino false
    adjustFreeInodes wrapSucc

/-! ## Inode table -/

/-- The checksum that belongs to an inode. -/
def inodeChecksum (x : Inode) : Nat :=
  nyfsCrc32 (encodeInode { x with checksum := 0 })

/-- The place of an inode's record. -/
def inodeOffset (ino : Nat) : NyfsM D Nat :=
  Eff.gets (fun v => v.sb.inodeTableStart * v.blockSize + ino * 256)

/-- {lit}`nyfs_read_inode`. -/
def readInode (ino : Nat) : NyfsM D Inode := do
  let count ← Eff.gets (fun v => v.sb.inodeCount)
  if ino = nyfsInoNone ∨ count ≤ ino then
    failWith .NinvalidArg
  else
    let offset ← inodeOffset ino
    let bytes ← rawRead offset 256
    let out := decodeInode bytes
    if out.ino ≠ ino then
      failWith .Ncorrupted
    else if inodeChecksum out ≠ out.checksum then
      failWith .Ncorrupted
    else
      pure out

/-- The record that {lit}`nyfs_write_inode` stores: the inode under its number, with its
checksum. -/
def sealInode (ino : Nat) (x : Inode) : Inode :=
  { x with ino := ino, checksum := inodeChecksum { x with ino := ino } }

/-- {lit}`nyfs_write_inode`. -/
def writeInode (ino : Nat) (x : Inode) : NyfsM D Unit := do
  let count ← Eff.gets (fun v => v.sb.inodeCount)
  if ino = nyfsInoNone ∨ count ≤ ino then
    failWith .NinvalidArg
  else
    let offset ← inodeOffset ino
    rawWrite offset (encodeInode (sealInode ino x))

end Nyfs
end Nyxis
