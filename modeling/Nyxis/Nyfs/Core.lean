import Nyxis.Nyfs.Access
import Nyxis.Nyfs.Dirhash

/-!
# NyFS operations

The inode operations of the host library {lit}`nyfs_core.c`, formatting and opening.  The
parts that the kernel driver has in common with the host ({lit}`makeNode`,
{lit}`removeNode`, {lit}`renameNode`, {lit}`inodeRead`, {lit}`inodeWrite`) are definitions
of their own; {lit}`Nyxis.Nyfs.Kernel` uses them again.

{lit}`ftruncate` on the image file of the host is left out: the device is as large as it is.
-/

namespace Nyxis
namespace Nyfs

open Bytes

variable {D : Type} [Device D]

/-! ## Steps of the operations -/

/-- The test for a writable volume. -/
def requireWritable : NyfsM D Unit := do
  let writable ← Eff.gets Volume.writable
  if writable then pure () else failWith .NreadOnly

/-- Read an inode that has to be a directory. -/
def readDirInode (ino : Nat) : NyfsM D Inode := do
  let dir ← readInode ino
  if dir.type ≠ nyfsInoTypeDir then failWith .Nunsupported else pure dir

/-- The test that a name is not taken. -/
def requireAbsent (dir : Inode) (name : List UInt8) : NyfsM D Unit := do
  match ← attemptStatus (dirhashLookup dir name) with
  | .ok _ => failWith .NalreadyExists
  | .error .NnotFound => pure ()
  | .error e => failWith e

/-- The inode that a creation starts from. -/
def newInode (ino type mode : Nat) (cred : Cred) : Inode :=
  { Inode.zero with
    ino := ino
    type := type
    unixMode := mode &&& 0x0FFF
    uid := cred.uid
    gid := cred.gid
    linkCount := 1 }

/-- Give an inode back and return an error. -/
def giveBack {α : Type} (ino : Nat) (e : Nstatus) : NyfsM D α := do
  ignoreStatus (freeInode ino)
  failWith e

/-! ## Creating -/

/-- The second half of a creation: the new inode and its name are written. -/
def linkNode (parentIno : Nat) (dir : Inode) (name : List UInt8) (newIno : Nat) (child : Inode)
    (direntType : Nat) : NyfsM D Nat := do
  match ← attemptStatus (writeInode newIno child) with
  | .error e => giveBack newIno e
  | .ok () =>
      match ← dirhashInsert dir name newIno direntType with
      | (.error e, _) => giveBack newIno e
      | (.ok (), dir') =>
          writeInode parentIno dir'
          pure newIno

/-- The common part of {lit}`nyfs_op_create` and {lit}`nyfs_op_mkdir`. -/
def makeNode (isDir : Bool) (parentIno : Nat) (name : List UInt8) (mode : Nat) (cred : Cred) :
    NyfsM D Nat := do
  requireWritable
  let dir ← readDirInode parentIno
  checkAccess dir cred nyfsAceWriteData
  requireAbsent dir name
  let newIno ← allocInode
  let type := if isDir then nyfsInoTypeDir else nyfsInoTypeFile
  match ← attemptStatus (inheritAcl dir (newInode newIno type mode cred) isDir) with
  | .error e => giveBack newIno e
  | .ok child =>
      if isDir then
        match ← dirhashCreate child with
        | (.error e, _) => giveBack newIno e
        | (.ok (), child') => linkNode parentIno dir name newIno child' nyfsDirentTypeDir
      else
        linkNode parentIno dir name newIno child nyfsDirentTypeFile

/-- {lit}`nyfs_op_create`. -/
def opCreate (parentIno : Nat) (name : List UInt8) (unixMode : Nat) (cred : Cred) : NyfsM D Nat :=
  makeNode false parentIno name unixMode cred

/-- {lit}`nyfs_op_mkdir`. -/
def opMkdir (parentIno : Nat) (name : List UInt8) (unixMode : Nat) (cred : Cred) : NyfsM D Nat :=
  makeNode true parentIno name unixMode cred

/-! ## Removing -/

/-- The end of a removal: the inode loses a link, and its blocks with the last one. -/
def dropLink (ino : Nat) (x : Inode) : NyfsM D Unit := do
  if x.linkCount - 1 = 0 then
    if x.type = nyfsInoTypeDir then
      ignoreStatus (freeExtentChain x.dirHashRoot)
    ignoreStatus (freeExtentChain x.dataExtentRoot)
    ignoreStatus (freeInode ino)
  else
    ignoreStatus (writeInode ino { x with linkCount := x.linkCount - 1 })

/-- The common part of {lit}`nyfs_op_remove` and {lit}`nyfs_unlink`; only the former states
which type it expects. -/
def removeNode (parentIno : Nat) (name : List UInt8) (cred : Cred) (expectDir : Option Bool) :
    NyfsM D Unit := do
  requireWritable
  let dir ← readDirInode parentIno
  checkAccess dir cred nyfsAceDeleteChild
  let (targetIno, _) ← dirhashLookup dir name
  let target ← readInode targetIno
  if expectDir = some true ∧ target.type ≠ nyfsInoTypeDir then
    failWith .Nunsupported
  else if expectDir = some false ∧ target.type = nyfsInoTypeDir then
    failWith .Nunsupported
  else if target.type = nyfsInoTypeDir ∧ 0 < target.dirEntryCount then
    failWith .Nbusy
  else
    match ← dirhashRemove dir name with
    | (.error e, _) => failWith e
    | (.ok (), dir') =>
        writeInode parentIno dir'
        dropLink targetIno target

/-- {lit}`nyfs_op_remove`. -/
def opRemove (parentIno : Nat) (name : List UInt8) (cred : Cred) (expectDir : Bool) :
    NyfsM D Unit :=
  removeNode parentIno name cred (some expectDir)

/-! ## Reading and writing -/

/-- The read of an inode's data, cut at the end of the file. -/
def inodeRead (x : Inode) (offset size : Nat) : NyfsM D (List UInt8) :=
  if x.size ≤ offset then
    pure []
  else
    extentReadAt x.dataExtentRoot offset (min size (x.size - offset))

/-- The write of an inode's data: the number of bytes written. -/
def inodeWrite (ino : Nat) (x : Inode) (offset : Nat) (bytes : List UInt8) : NyfsM D Nat := do
  match ← extentWriteAt x.dataExtentRoot offset bytes with
  | (.error e, _) => failWith e
  | (.ok written, root) =>
      writeInode ino
        { x with dataExtentRoot := root, size := max x.size ((offset + written) % 2 ^ 64) }
      pure written

/-- {lit}`nyfs_op_read`. -/
def opRead (ino : Nat) (cred : Cred) (offset size : Nat) : NyfsM D (List UInt8) := do
  let x ← readInode ino
  checkAccess x cred nyfsAceReadData
  inodeRead x offset size

/-- {lit}`nyfs_op_write`. -/
def opWrite (ino : Nat) (cred : Cred) (offset : Nat) (bytes : List UInt8) : NyfsM D Nat := do
  requireWritable
  let x ← readInode ino
  checkAccess x cred nyfsAceWriteData
  inodeWrite ino x offset bytes

/-! ## Listing, renaming and attributes -/

/-- The common part of {lit}`nyfs_op_readdir_at` and {lit}`nyfs_readdir`. -/
def readdirNode (dirIno : Nat) (cred : Cred) (index nameLimit : Nat) : NyfsM D DirentView := do
  let dir ← readDirInode dirIno
  checkAccess dir cred nyfsAceReadData
  dirhashReaddir dir index nameLimit

/-- {lit}`nyfs_op_readdir_at`. -/
def opReaddirAt (dirIno : Nat) (cred : Cred) (index : Nat) : NyfsM D DirentView :=
  readdirNode dirIno cred index nyfsNameMax

/-- The end of a rename: the name moves, or goes back when there is no room.  Inside one
directory the two inodes are one copy. -/
def moveName (oldParentIno : Nat) (oldDir : Inode) (oldName : List UInt8) (newParentIno : Nat)
    (newDir : Inode) (newName : List UInt8) (movedIno movedType : Nat) : NyfsM D Unit := do
  let sameDir := oldParentIno = newParentIno
  match ← dirhashRemove oldDir oldName with
  | (.error e, _) => failWith e
  | (.ok (), oldDir₁) =>
      match ← dirhashInsert (if sameDir then oldDir₁ else newDir) newName movedIno movedType with
      | (.error e, newDir₁) =>
          let (_, oldDir₂) ←
            dirhashInsert (if sameDir then newDir₁ else oldDir₁) oldName movedIno movedType
          ignoreStatus (writeInode oldParentIno oldDir₂)
          failWith e
      | (.ok (), newDir₁) =>
          writeInode oldParentIno (if sameDir then newDir₁ else oldDir₁)
          if sameDir then pure () else writeInode newParentIno newDir₁

/-- The common part of {lit}`nyfs_op_rename` and {lit}`nyfs_rename`. -/
def renameNode (oldParentIno : Nat) (oldName : List UInt8) (newParentIno : Nat)
    (newName : List UInt8) (cred : Cred) : NyfsM D Unit := do
  requireWritable
  let sameDir := oldParentIno = newParentIno
  let oldDir ← readDirInode oldParentIno
  let newDir ← (if sameDir then pure oldDir else readDirInode newParentIno)
  checkAccess oldDir cred nyfsAceDeleteChild
  checkAccess newDir cred nyfsAceWriteData
  let (movedIno, movedType) ← dirhashLookup oldDir oldName
  if sameDir ∧ oldName = newName then
    pure ()
  else if movedType = nyfsDirentTypeDir ∧ movedIno = newParentIno then
    failWith .NinvalidArg
  else
    requireAbsent newDir newName
    moveName oldParentIno oldDir oldName newParentIno newDir newName movedIno movedType

/-- {lit}`nyfs_op_rename`. -/
def opRename (oldParentIno : Nat) (oldName : List UInt8) (newParentIno : Nat)
    (newName : List UInt8) (cred : Cred) : NyfsM D Unit :=
  renameNode oldParentIno oldName newParentIno newName cred

/-- The attributes that {lit}`nyfs_op_setattr` sets; a time of {lit}`NYFS_TIME_KEEP` is
none. -/
structure AttrChange where
  mode : Option Nat
  owner : Option (Nat × Nat)
  mtime : Option Nat
  atime : Option Nat

/-- An inode with changed attributes. -/
def AttrChange.apply (a : AttrChange) (x : Inode) : Inode :=
  { x with
    unixMode := (a.mode.map (· &&& 0x0FFF)).getD x.unixMode
    uid := (a.owner.map Prod.fst).getD x.uid
    gid := (a.owner.map Prod.snd).getD x.gid
    mtime := a.mtime.getD x.mtime
    atime := a.atime.getD x.atime }

/-- {lit}`nyfs_op_setattr`. -/
def opSetattr (ino : Nat) (cred : Cred) (change : AttrChange) : NyfsM D Unit := do
  requireWritable
  let x ← readInode ino
  if cred.uid ≠ 0 ∧ cred.uid ≠ x.uid then
    failWith .Npermission
  else
    writeInode ino (change.apply x)

/-- {lit}`nyfs_op_truncate`. -/
def opTruncate (ino : Nat) (cred : Cred) (newSize : Nat) : NyfsM D Unit := do
  requireWritable
  let x ← readInode ino
  checkAccess x cred nyfsAceWriteData
  if x.size < newSize then
    failWith .Nunsupported
  else
    writeInode ino { x with size := newSize }

/-- An access control list is put on an inode.  The source has no call for this: its test
writes the record itself.  The list is stored as {lit}`nyfs_inherit_acl` stores one. -/
def putAcl (ino : Nat) (aces : List Ace) : NyfsM D Unit := do
  requireWritable
  let x ← readInode ino
  let x' ← storeAcl x aces
  writeInode ino x'

/-! ## Formatting and opening -/

/-- {lit}`nyfs_mkfs_params_t`; a label of the kernel's {lit}`nyfs_format` is empty. -/
structure MkfsParams where
  blockSizeShift : Nat
  totalBlocks : Nat
  inodeCount : Nat
  label : List UInt8

/-- The number of inodes that a format makes. -/
def MkfsParams.inodes (p : MkfsParams) : Nat :=
  if p.inodeCount = 0 then max 16 (p.totalBlocks / 8) else p.inodeCount

/-- The number of blocks for some bytes, at least one. -/
def blocksFor (bytes blockSize : Nat) : Nat :=
  max 1 ((bytes + blockSize - 1) % 2 ^ 64 / blockSize)

def MkfsParams.inodeBitmapBlocks (p : MkfsParams) : Nat :=
  blocksFor ((p.inodes + 7) % 2 ^ 64 / 8) (2 ^ p.blockSizeShift)

def MkfsParams.blockBitmapBlocks (p : MkfsParams) : Nat :=
  blocksFor ((p.totalBlocks + 7) % 2 ^ 64 / 8) (2 ^ p.blockSizeShift)

def MkfsParams.inodeTableBlocks (p : MkfsParams) : Nat :=
  blocksFor (p.inodes * 256 % 2 ^ 64) (2 ^ p.blockSizeShift)

/-- The superblock of a format. -/
def MkfsParams.superblock (p : MkfsParams) : Superblock :=
  let allocMetaStart := (1 + p.inodeBitmapBlocks) % 2 ^ 64
  let inodeTableStart := (allocMetaStart + p.blockBitmapBlocks) % 2 ^ 64
  let firstDataBlock := (inodeTableStart + p.inodeTableBlocks) % 2 ^ 64
  { Superblock.zero with
    magic := nyfsMagic
    version := nyfsVersion
    superblockSize := 256
    blockSizeShift := p.blockSizeShift
    allocAlgorithm := nyfsAllocBitmap
    label := leNat (p.label.take 31)
    totalBlocks := p.totalBlocks
    freeBlocks := p.totalBlocks - firstDataBlock
    inodeTableStart := inodeTableStart
    inodeCount := p.inodes
    freeInodeCount := p.inodes
    allocMetaStart := allocMetaStart
    allocMetaBlocks := p.blockBitmapBlocks
    inodeBitmapStart := 1 }

/-- The first block behind the metadata. -/
def MkfsParams.firstDataBlock (p : MkfsParams) : Nat :=
  (p.superblock.inodeTableStart + p.inodeTableBlocks) % 2 ^ 64

/-- Write zeroes over a block, byte by byte. -/
def zeroBlock (block : Nat) : (count b : Nat) → NyfsM D Unit
  | 0, _ => pure ()
  | count + 1, b => do
      let bs ← Eff.gets Volume.blockSize
      rawWrite (block * bs + b) [0]
      zeroBlock block count (b + 1)

/-- Write zeroes over blocks. -/
def zeroBlocks : (count block : Nat) → NyfsM D Unit
  | 0, _ => pure ()
  | count + 1, block => do
      let bs ← Eff.gets Volume.blockSize
      zeroBlock block bs 0
      zeroBlocks count (block + 1)

/-- Mark blocks as taken. -/
def markBlocks (allocMetaStart : Nat) : (count i : Nat) → NyfsM D Unit
  | 0, _ => pure ()
  | count + 1, i => do
      bitmapPut allocMetaStart i true
      markBlocks allocMetaStart count (i + 1)

/-- The inode of the root directory. -/
def rootInode : Inode :=
  { Inode.zero with
    ino := nyfsRootIno
    type := nyfsInoTypeDir
    unixMode := nyfsModeIrusr ||| nyfsModeIwusr ||| nyfsModeIxusr ||| nyfsModeIrgrp |||
      nyfsModeIxgrp ||| nyfsModeIroth ||| nyfsModeIxoth
    linkCount := 1 }

/-- The bitmaps of a new volume: the metadata and inode 0 are taken. -/
def formatBitmaps (p : MkfsParams) : NyfsM D Unit := do
  zeroBlocks (p.inodeBitmapBlocks + p.blockBitmapBlocks) 1
  markBlocks p.superblock.allocMetaStart p.firstDataBlock 0
  bitmapPut p.superblock.inodeBitmapStart 0 true
  adjustFreeInodes wrapPred

/-- The root directory of a new volume. -/
def formatRoot : NyfsM D Unit := do
  let rootIno ← allocInode
  if rootIno ≠ nyfsRootIno then
    failWith .Ncorrupted
  else
    match ← dirhashCreate rootInode with
    | (.error e, _) => failWith e
    | (.ok (), root) =>
        writeInode nyfsRootIno root
        flushSuperblock

/-- The writes of {lit}`nyfs_format`. -/
def formatVolume (p : MkfsParams) : NyfsM D Unit := do
  flushSuperblock
  formatBitmaps p
  formatRoot

/-- {lit}`nyfs_format`: the device afterwards. -/
def nyfsFormat (d : D) (p : MkfsParams) : Except Stop Unit × D :=
  if p.blockSizeShift < nyfsBlockSizeShiftMin ∨ nyfsBlockSizeShiftMax < p.blockSizeShift then
    (.error (.status .NinvalidArg), d)
  else if p.totalBlocks < 64 then
    (.error (.status .NinvalidArg), d)
  else if p.totalBlocks ≤ p.firstDataBlock then
    (.error (.status .NinvalidArg), d)
  else
    let result := formatVolume p ⟨d, true, p.superblock, 2 ^ p.blockSizeShift⟩
    (result.1, result.2.disk)

/-- The tests on a superblock that {lit}`nyfs_volume_open` and {lit}`nyfs_mount` make, in
the host's order. -/
def checkSuperblock (sb : Superblock) : Option Nstatus :=
  if sb.magic ≠ nyfsMagic ∨ sb.version ≠ nyfsVersion ∨ sb.superblockSize ≠ 256 then
    some .NbadFilesystem
  else if sb.blockSizeShift < nyfsBlockSizeShiftMin ∨ nyfsBlockSizeShiftMax < sb.blockSizeShift then
    some .NbadFilesystem
  else if (sealSuperblock sb).checksum ≠ sb.checksum then
    some .Ncorrupted
  else
    none

/-- {lit}`nyfs_volume_open`. -/
def volumeOpen (d : D) (writable : Bool) : Except Stop Unit × Volume D :=
  let open' : NyfsM D Unit := do
    let bytes ← rawRead 0 256
    let sb := decodeSuperblock bytes
    match checkSuperblock sb with
    | some e => failWith e
    | none =>
        Eff.modify (fun v => { v with
          sb := { sb with mountCount := (sb.mountCount + 1) % 2 ^ 64 }
          blockSize := 2 ^ sb.blockSizeShift })
        if writable then flushSuperblock else pure ()
  open' ⟨d, writable, Superblock.zero, 512⟩

/-- The part of {lit}`nyfs_mount` that reads the volume. -/
def mountVolume (d : D) (writable : Bool) : Except Stop Unit × Volume D :=
  let mount : NyfsM D Unit := do
    let bytes ← rawRead 0 256
    let sb := decodeSuperblock bytes
    match checkSuperblock sb with
    | some e => failWith e
    | none =>
        Eff.modify (fun v => { v with sb := sb, blockSize := 2 ^ sb.blockSizeShift })
  mount ⟨d, writable, Superblock.zero, 0⟩

end Nyfs
end Nyxis
