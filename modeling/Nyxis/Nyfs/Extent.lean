import Nyxis.Nyfs.Volume

/-!
# NyFS extent streams

A file's data and a directory's hash table are growing byte streams: a chain of extent-list
blocks, each with a header and up to 128 extents.  As in {lit}`Nyxis.Nyfs.Volume` one
definition stands for the kernel's and the host's function.

The root of a chain is an in-out parameter of {lit}`nyfs_extent_write_at`: it is returned
together with the status, also when the call fails.
-/

namespace Nyxis
namespace Nyfs

variable {D : Type} [Device D]

/-! ## Reading a list block -/

/-- Read and check the header of an extent-list block. -/
def extentHeader (cur : Nat) : NyfsM D ExtentHeader := do
  let bs ← Eff.gets Volume.blockSize
  let bytes ← rawRead (cur * bs) 16
  let hdr := decodeExtentHeader bytes
  if hdr.magic ≠ nyfsExtentMagic ∨ nyfsMaxExtentsPerBlock < hdr.extentCount then
    failWith .Ncorrupted
  else
    pure hdr

/-- The extents of a byte string. -/
def decodeExtents : (count : Nat) → List UInt8 → List Extent
  | 0, _ => []
  | count + 1, bytes => decodeExtent bytes :: decodeExtents count (bytes.drop 16)

/-- Read the extents behind the header. -/
def readExtents (cur count : Nat) : NyfsM D (List Extent) := do
  if count = 0 then
    pure []
  else
    let bs ← Eff.gets Volume.blockSize
    let bytes ← rawRead (cur * bs + 16) (count * 16)
    pure (decodeExtents count bytes)

/-! ## Walking a chain -/

/-- The inner loop of {lit}`nyfs_extent_resolve`: the block of a logical block number, or
the number of blocks passed so far. -/
def scanExtents (logicalBlock : Nat) : List Extent → (base : Nat) → Nat ⊕ Nat
  | [], base => .inr base
  | e :: es, base =>
      if base ≤ logicalBlock ∧ logicalBlock < (base + e.length) % 2 ^ 64 then
        .inl ((e.startBlock + (logicalBlock - base)) % 2 ^ 64)
      else
        scanExtents logicalBlock es ((base + e.length) % 2 ^ 64)

/-- The outer loop of {lit}`nyfs_extent_resolve`. -/
def extentResolveLoop (logicalBlock : Nat) : (fuel cur base : Nat) → NyfsM D Nat
  | 0, _, _ => Eff.fail .hang
  | fuel + 1, cur, base => do
      if cur = nyfsBlknoNone then
        failWith .NnotFound
      else
        let hdr ← extentHeader cur
        let extents ← readExtents cur hdr.extentCount
        match scanExtents logicalBlock extents base with
        | .inl block => pure block
        | .inr base' => extentResolveLoop logicalBlock fuel hdr.nextBlock base'

/-- {lit}`nyfs_extent_resolve`. -/
def extentResolve (root logicalBlock : Nat) : NyfsM D Nat :=
  extentResolveLoop logicalBlock linkFuel root 0

/-- The loop of {lit}`nyfs_extent_total_blocks`. -/
def extentTotalLoop : (fuel cur total : Nat) → NyfsM D Nat
  | 0, _, _ => Eff.fail .hang
  | fuel + 1, cur, total => do
      if cur = nyfsBlknoNone then
        pure total
      else
        let hdr ← extentHeader cur
        let extents ← readExtents cur hdr.extentCount
        extentTotalLoop fuel hdr.nextBlock
          (extents.foldl (fun n e => (n + e.length) % 2 ^ 64) total)

/-- {lit}`nyfs_extent_total_blocks`. -/
def extentTotalBlocks (root : Nat) : NyfsM D Nat :=
  extentTotalLoop linkFuel root 0

/-! ## Freeing a chain -/

/-- Free the blocks of an extent from a position on. -/
def freeExtentBlocks (start : Nat) : (count j : Nat) → NyfsM D Unit
  | 0, _ => pure ()
  | count + 1, j => do
      freeBlock ((start + j) % 2 ^ 64)
      freeExtentBlocks start count (j + 1)

/-- Free the blocks of all extents of a list block. -/
def freeExtents : List Extent → NyfsM D Unit
  | [] => pure ()
  | e :: es => do
      freeExtentBlocks e.startBlock e.length 0
      freeExtents es

/-- The loop of {lit}`nyfs_free_extent_chain`. -/
def freeExtentChainLoop : (fuel cur : Nat) → NyfsM D Unit
  | 0, _ => Eff.fail .hang
  | fuel + 1, cur => do
      if cur = nyfsBlknoNone then
        pure ()
      else
        let hdr ← extentHeader cur
        let extents ← readExtents cur hdr.extentCount
        freeExtents extents
        freeBlock cur
        freeExtentChainLoop fuel hdr.nextBlock

/-- {lit}`nyfs_free_extent_chain`. -/
def freeExtentChain (root : Nat) : NyfsM D Unit :=
  freeExtentChainLoop linkFuel root

/-! ## Growing a chain -/

/-- A call under a {lit}`(void)` cast: its status is dropped. -/
def ignoreStatus {α : Type} (c : NyfsM D α) : NyfsM D Unit := do
  let _ ← attemptStatus c
  pure ()

/-- The last list block of a chain with its header. -/
def lastExtentBlock : (fuel cur : Nat) → NyfsM D (Nat × ExtentHeader)
  | 0, _ => Eff.fail .hang
  | fuel + 1, cur => do
      let hdr ← extentHeader cur
      if hdr.nextBlock = nyfsBlknoNone then
        pure (cur, hdr)
      else
        lastExtentBlock fuel hdr.nextBlock

/-- Fill a new list block that holds one extent of one block. -/
def writeNewExtentBlock (listBlock dataBlock : Nat) : NyfsM D Unit := do
  let bs ← Eff.gets Volume.blockSize
  rawWrite (listBlock * bs) (encodeExtentHeader ⟨nyfsExtentMagic, 1, nyfsBlknoNone⟩)
  rawWrite (listBlock * bs + 16) (encodeExtent ⟨dataBlock, 1⟩)

/-- Allocate and fill a new list block for a data block; the data block is given back
when that fails. -/
def addExtentBlock (dataBlock : Nat) : NyfsM D Nat := do
  match ← attemptStatus allocBlock with
  | .error e =>
      ignoreStatus (freeBlock dataBlock)
      failWith e
  | .ok listBlock =>
      match ← attemptStatus (writeNewExtentBlock listBlock dataBlock) with
      | .error e =>
          ignoreStatus (freeBlock dataBlock)
          ignoreStatus (freeBlock listBlock)
          failWith e
      | .ok () => pure listBlock

/-- The end of {lit}`nyfs_extent_append_one`: the new block goes into the last list block
of the chain, or into a new list block behind it. -/
def appendToLast (dataBlock last : Nat) (hdr : ExtentHeader) (extents : List Extent) :
    NyfsM D Unit := do
  let bs ← Eff.gets Volume.blockSize
  match extents.getLast? with
  | some e =>
      if (e.startBlock + e.length) % 2 ^ 64 = dataBlock then
        rawWrite (last * bs + 16 + (hdr.extentCount - 1) * 16)
          (encodeExtent { e with length := (e.length + 1) % 2 ^ 64 })
      else
        appendExtent bs
  | none => appendExtent bs
where
  /-- Add a new extent behind the others. -/
  appendExtent (bs : Nat) : NyfsM D Unit := do
    if hdr.extentCount < nyfsMaxExtentsPerBlock ∧ (hdr.extentCount + 1) * 16 + 16 ≤ bs then
      match ← attemptStatus (rawWrite (last * bs + 16 + hdr.extentCount * 16)
          (encodeExtent ⟨dataBlock, 1⟩)) with
      | .error e =>
          ignoreStatus (freeBlock dataBlock)
          failWith e
      | .ok () =>
          rawWrite (last * bs) (encodeExtentHeader { hdr with extentCount := hdr.extentCount + 1 })
    else
      let listBlock ← addExtentBlock dataBlock
      rawWrite (last * bs) (encodeExtentHeader { hdr with nextBlock := listBlock })

/-- {lit}`nyfs_extent_append_one`.  The root is changed only by a successful call on an
empty chain. -/
def extentAppendOne (root : Nat) : NyfsM D Nat := do
  let dataBlock ← allocBlock
  if root = nyfsBlknoNone then
    addExtentBlock dataBlock
  else
    match ← attemptStatus (lastExtentBlock linkFuel root) with
    | .error e =>
        ignoreStatus (freeBlock dataBlock)
        failWith e
    | .ok (last, hdr) =>
        match ← attemptStatus (readExtents last hdr.extentCount) with
        | .error e =>
            ignoreStatus (freeBlock dataBlock)
            failWith e
        | .ok extents =>
            appendToLast dataBlock last hdr extents
            pure root

/-- The loop of {lit}`nyfs_extent_write_at` that grows the chain. -/
def extentGrow : (count root : Nat) → NyfsM D (Except Nstatus Unit × Nat)
  | 0, root => pure (.ok (), root)
  | count + 1, root => do
      match ← attemptStatus (extentAppendOne root) with
      | .error e => pure (.error e, root)
      | .ok root' => extentGrow count root'

/-! ## Reading and writing -/

/-- The loop of {lit}`nyfs_extent_read_at`, from an offset on with the given number of
bytes still to read. -/
def extentReadLoop (root : Nat) : (rounds offset size : Nat) → NyfsM D (List UInt8)
  | 0, _, _ => pure []
  | rounds + 1, offset, size => do
      if size = 0 then
        pure []
      else
        let bs ← Eff.gets Volume.blockSize
        let intra := offset % bs
        let chunk := min (bs - intra) size
        match ← attemptStatus (extentResolve root (offset / bs)) with
        | .error .NnotFound => pure []
        | .error e => failWith e
        | .ok actual =>
            let bytes ← rawRead (actual * bs + intra) chunk
            let rest ← extentReadLoop root rounds ((offset + chunk) % 2 ^ 64) (size - chunk)
            pure (bytes ++ rest)

/-- {lit}`nyfs_extent_read_at`: the bytes read.  Each round reads at least one byte. -/
def extentReadAt (root offset size : Nat) : NyfsM D (List UInt8) :=
  extentReadLoop root size offset size

/-- The loop of {lit}`nyfs_extent_write_at` that writes the bytes. -/
def extentWriteLoop (root : Nat) : (rounds offset : Nat) → List UInt8 → NyfsM D Unit
  | 0, _, _ => pure ()
  | rounds + 1, offset, bytes => do
      if bytes.length = 0 then
        pure ()
      else
        let bs ← Eff.gets Volume.blockSize
        let intra := offset % bs
        let chunk := min (bs - intra) bytes.length
        let actual ← extentResolve root (offset / bs)
        rawWrite (actual * bs + intra) (bytes.take chunk)
        extentWriteLoop root rounds ((offset + chunk) % 2 ^ 64) (bytes.drop chunk)

/-- {lit}`nyfs_extent_write_at`: the status with the number of bytes written, and the
root. -/
def extentWriteAt (root offset : Nat) (bytes : List UInt8) :
    NyfsM D (Except Nstatus Nat × Nat) := do
  if bytes.length = 0 then
    pure (.ok 0, root)
  else
    let bs ← Eff.gets Volume.blockSize
    let needed := (offset + bytes.length + bs - 1) % 2 ^ 64 / bs
    match ← attemptStatus (extentTotalBlocks root) with
    | .error e => pure (.error e, root)
    | .ok total =>
        match ← extentGrow (needed - total) root with
        | (.error e, root') => pure (.error e, root')
        | (.ok (), root') =>
            match ← attemptStatus (extentWriteLoop root' bytes.length offset bytes) with
            | .error e => pure (.error e, root')
            | .ok () => pure (.ok bytes.length, root')

end Nyfs
end Nyxis
