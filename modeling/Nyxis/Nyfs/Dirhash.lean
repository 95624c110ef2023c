import Nyxis.Nyfs.Extent

/-!
# NyFS directory tables

A directory's names lie in a stream: a header, sixteen buckets that hold the offset of the
first record of a chain, and the records, each a {lit}`nyfs_dirent_t` with its name behind
it.  Records are only ever added at the end of the stream.

The directory's inode is an in-out parameter of the calls that change the table: it is
returned with the status.  Where the source reads into a buffer without testing how much it
got, the missing bytes are taken to be absent.
-/

namespace Nyxis
namespace Nyfs

open Bytes

variable {D : Type} [Device D]

/-! ## Creating -/

/-- A further write of a sequence that stops at the first error. -/
def thenWriteAt (prior : Except Nstatus Nat × Nat) (offset : Nat) (bytes : List UInt8) :
    NyfsM D (Except Nstatus Nat × Nat) :=
  match prior with
  | (.error e, root) => pure (.error e, root)
  | (.ok _, root) => extentWriteAt root offset bytes

/-- {lit}`nyfs_dirhash_create`. -/
def dirhashCreate (dir : Inode) : NyfsM D (Except Nstatus Unit × Inode) := do
  let header := encodeDirhashHeader
    ⟨nyfsDirhashMagic, nyfsDirhashDefaultBuckets, 0, 32 + nyfsDirhashDefaultBuckets * 8, 0, 0⟩
  let buckets := (List.replicate nyfsDirhashDefaultBuckets 0).flatMap (leBytes 8)
  let first ← extentWriteAt nyfsBlknoNone 0 header
  let second ← thenWriteAt first 32 buckets
  match second with
  | (.error e, root) => pure (.error e, { dir with dirHashRoot := root })
  | (.ok _, root) => pure (.ok (), { dir with dirHashRoot := root, dirEntryCount := 0 })

/-! ## Looking up -/

/-- Read and check the header of a table. -/
def dirhashHeader (root : Nat) : NyfsM D DirhashHeader := do
  let bytes ← extentReadAt root 0 32
  let hdr := decodeDirhashHeader bytes
  if bytes.length ≠ 32 ∨ hdr.magic ≠ nyfsDirhashMagic ∨ hdr.bucketCount = 0 then
    failWith .Ncorrupted
  else
    pure hdr

/-- The place of a bucket. -/
def bucketOffset (b : Nat) : Nat :=
  32 + b * 8

/-- Read the offset of the first record of a bucket. -/
def bucketHead (root b : Nat) : NyfsM D Nat := do
  let bytes ← extentReadAt root (bucketOffset b) 8
  pure (leNat bytes)

/-- The header and the head of the bucket of a name. -/
def dirhashSlot (root : Nat) (name : List UInt8) : NyfsM D (DirhashHeader × Nat) := do
  let hdr ← dirhashHeader root
  let head ← bucketHead root (nyfsHashName name % hdr.bucketCount)
  pure (hdr, head)

/-- Read a record without its name. -/
def readDirent (root cur : Nat) : NyfsM D Dirent := do
  let bytes ← extentReadAt root cur 24
  if bytes.length ≠ 24 then
    failWith .Ncorrupted
  else
    pure (decodeDirent bytes)

/-- Whether the record carries the name. -/
def nameMatches (root hash : Nat) (name : List UInt8) (cur : Nat) (de : Dirent) :
    NyfsM D Bool := do
  if de.nameHash = hash ∧ de.nameLen = name.length then
    let bytes ← extentReadAt root ((cur + 24) % 2 ^ 64) name.length
    pure (bytes = name)
  else
    pure false

/-- The loop of {lit}`nyfs_dirhash_lookup` and {lit}`nyfs_dirhash_remove`: the record of a
name and the offset of the record before it, 0 for the bucket itself. -/
def dirhashFind (root hash : Nat) (name : List UInt8) :
    (fuel prevOffset cur : Nat) → NyfsM D (Nat × Dirent)
  | 0, _, _ => Eff.fail .hang
  | fuel + 1, prevOffset, cur => do
      if cur = 0 then
        failWith .NnotFound
      else
        let de ← readDirent root cur
        let found ← nameMatches root hash name cur de
        if found then
          pure (prevOffset, de)
        else
          dirhashFind root hash name fuel cur de.nextOffset

/-- {lit}`nyfs_dirhash_lookup`: the inode number and the type. -/
def dirhashLookup (dir : Inode) (name : List UInt8) : NyfsM D (Nat × Nat) := do
  if dir.dirHashRoot = nyfsBlknoNone then
    failWith .NnotFound
  else if name.length = 0 ∨ nyfsNameMax < name.length then
    failWith .NinvalidArg
  else
    let slot ← dirhashSlot dir.dirHashRoot name
    let found ← dirhashFind dir.dirHashRoot (nyfsHashName name) name linkFuel 0 slot.2
    pure (found.2.ino, found.2.fileType)

/-! ## Inserting -/

/-- The bytes that a record takes up, rounded up to a multiple of eight. -/
def recordSize (nameLen : Nat) : Nat :=
  (24 + nameLen + 7) / 8 * 8

/-- The writes of {lit}`nyfs_dirhash_insert`: the record, its name, the bucket and the
header. -/
def dirhashInsertAt (dir : Inode) (name : List UInt8) (ino fileType : Nat) (hdr : DirhashHeader)
    (oldHead : Nat) : NyfsM D (Except Nstatus Unit × Inode) := do
  let hash := nyfsHashName name
  let recordOffset := hdr.freeOffset
  let hdr' := { hdr with
    freeOffset := (recordOffset + recordSize name.length) % 2 ^ 64
    entryCount := (hdr.entryCount + 1) % 2 ^ 64 }
  let first ← extentWriteAt dir.dirHashRoot recordOffset
    (encodeDirent ⟨ino, oldHead, hash, name.length, fileType % 256, 0⟩)
  let second ← thenWriteAt first ((recordOffset + 24) % 2 ^ 64) name
  let third ← thenWriteAt second (bucketOffset (hash % hdr.bucketCount)) (leBytes 8 recordOffset)
  let fourth ← thenWriteAt third 0 (encodeDirhashHeader hdr')
  match fourth with
  | (.error e, root) => pure (.error e, { dir with dirHashRoot := root })
  | (.ok _, root) =>
      pure (.ok (), { dir with dirHashRoot := root, dirEntryCount := hdr'.entryCount })

/-- {lit}`nyfs_dirhash_insert`. -/
def dirhashInsert (dir : Inode) (name : List UInt8) (ino fileType : Nat) :
    NyfsM D (Except Nstatus Unit × Inode) := do
  if name.length = 0 ∨ nyfsNameMax < name.length then
    pure (.error .NinvalidArg, dir)
  else
    let created ←
      if dir.dirHashRoot = nyfsBlknoNone then dirhashCreate dir else pure (.ok (), dir)
    match created with
    | (.error e, dir) => pure (.error e, dir)
    | (.ok (), dir) =>
        match ← attemptStatus (dirhashSlot dir.dirHashRoot name) with
        | .error e => pure (.error e, dir)
        | .ok (hdr, oldHead) => dirhashInsertAt dir name ino fileType hdr oldHead

/-! ## Removing -/

/-- The writes of {lit}`nyfs_dirhash_remove`: the link to the record, and the header. -/
def dirhashUnlink (dir : Inode) (slot next prevOffset : Nat) (hdr : DirhashHeader) :
    NyfsM D (Except Nstatus Unit × Inode) := do
  let hdr' := { hdr with entryCount := (hdr.entryCount + (2 ^ 64 - 1)) % 2 ^ 64 }
  let link := if prevOffset = 0 then slot else (prevOffset + 8) % 2 ^ 64
  let first ← extentWriteAt dir.dirHashRoot link (leBytes 8 next)
  let second ← thenWriteAt first 0 (encodeDirhashHeader hdr')
  match second with
  | (.error e, root) => pure (.error e, { dir with dirHashRoot := root })
  | (.ok _, root) =>
      pure (.ok (), { dir with dirHashRoot := root, dirEntryCount := hdr'.entryCount })

/-- {lit}`nyfs_dirhash_remove`. -/
def dirhashRemove (dir : Inode) (name : List UInt8) :
    NyfsM D (Except Nstatus Unit × Inode) := do
  if dir.dirHashRoot = nyfsBlknoNone then
    pure (.error .NnotFound, dir)
  else if name.length = 0 ∨ nyfsNameMax < name.length then
    pure (.error .NinvalidArg, dir)
  else
    match ← attemptStatus (dirhashSlot dir.dirHashRoot name) with
    | .error e => pure (.error e, dir)
    | .ok (hdr, head) =>
        match ← attemptStatus
            (dirhashFind dir.dirHashRoot (nyfsHashName name) name linkFuel 0 head) with
        | .error e => pure (.error e, dir)
        | .ok (prevOffset, de) =>
            dirhashUnlink dir (bucketOffset (nyfsHashName name % hdr.bucketCount)) de.nextOffset
              prevOffset hdr

/-! ## Listing -/

/-- {lit}`nyfs_dirent_view_t`. -/
structure DirentView where
  name : List UInt8
  ino : Nat
  type : Nat
deriving DecidableEq

/-- The walk over one bucket: the record with the given index, or the number of records seen
so far.  Names are cut at the given length. -/
def readdirBucket (root index nameLimit : Nat) :
    (fuel cur seen : Nat) → NyfsM D (DirentView ⊕ Nat)
  | 0, _, _ => Eff.fail .hang
  | fuel + 1, cur, seen => do
      if cur = 0 then
        pure (.inr seen)
      else
        let de ← readDirent root cur
        if seen = index then
          let name ← extentReadAt root ((cur + 24) % 2 ^ 64) (min de.nameLen nameLimit)
          pure (.inl ⟨name, de.ino, de.fileType⟩)
        else
          readdirBucket root index nameLimit fuel de.nextOffset ((seen + 1) % 2 ^ 64)

/-- The walk over the buckets. -/
def readdirBuckets (root index nameLimit : Nat) : (count b seen : Nat) → NyfsM D DirentView
  | 0, _, _ => failWith .NnotFound
  | count + 1, b, seen => do
      let head ← bucketHead root b
      match ← readdirBucket root index nameLimit linkFuel head seen with
      | .inl view => pure view
      | .inr seen' => readdirBuckets root index nameLimit count (b + 1) seen'

/-- The common part of {lit}`nyfs_readdir` and {lit}`nyfs_op_readdir_at`. -/
def dirhashReaddir (dir : Inode) (index nameLimit : Nat) : NyfsM D DirentView := do
  if dir.dirHashRoot = nyfsBlknoNone then
    failWith .NnotFound
  else
    let hdr ← dirhashHeader dir.dirHashRoot
    readdirBuckets dir.dirHashRoot index nameLimit hdr.bucketCount 0 0

end Nyfs
end Nyxis
