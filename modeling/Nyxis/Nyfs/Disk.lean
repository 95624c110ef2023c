import Nyxis.Lib.Bytes
import Nyxis.Status

/-!
# The on-disk format of NyFS

The structures of {lit}`nyfs_disk.h`, the checksum and the name hash.  A structure is
packed: its fields stand one behind the other, little-endian, and arrays of reserved
bytes are fields of their width.

Main results:

- Theorems {lit}`decodeSuperblock_encode`, {lit}`decodeInode_encode`,
  {lit}`decodeExtentHeader_encode`, {lit}`decodeExtent_encode`,
  {lit}`decodeDirhashHeader_encode` and {lit}`decodeDirent_encode`: a structure whose
  fields fit is read back.
-/

namespace Nyxis
namespace Nyfs

open Bytes

/-! ## Constants -/

def nyfsBlknoNone : Nat := 0
def nyfsInoNone : Nat := 0
def nyfsRootIno : Nat := 1

def nyfsMagic : Nat := 0x53465949
def nyfsVersion : Nat := 1
def nyfsDirhashMagic : Nat := 0x48524944
def nyfsExtentMagic : Nat := 0x42545845

def nyfsBlockSizeShiftMin : Nat := 9
def nyfsBlockSizeShiftMax : Nat := 16
def nyfsAllocBitmap : Nat := 0

def nyfsModeIrusr : Nat := 0x100
def nyfsModeIwusr : Nat := 0x080
def nyfsModeIxusr : Nat := 0x040
def nyfsModeIrgrp : Nat := 0x020
def nyfsModeIwgrp : Nat := 0x010
def nyfsModeIxgrp : Nat := 0x008
def nyfsModeIroth : Nat := 0x004
def nyfsModeIwoth : Nat := 0x002
def nyfsModeIxoth : Nat := 0x001

def nyfsAceReadData : Nat := 0x01
def nyfsAceWriteData : Nat := 0x02
def nyfsAceAppendData : Nat := 0x04
def nyfsAceDeleteChild : Nat := 0x08
def nyfsAceExecute : Nat := 0x10

def nyfsAceTypeAllow : Nat := 0
def nyfsAceTypeDeny : Nat := 1

def nyfsAceFlagGroup : Nat := 0x01
def nyfsAceFlagInheritFile : Nat := 0x02
def nyfsAceFlagInheritDir : Nat := 0x04
def nyfsAceFlagInheritOnly : Nat := 0x08
def nyfsAceFlagNoPropagate : Nat := 0x10

def nyfsIdEveryone : Nat := 0xFFFFFFFF
def nyfsAclInlineCount : Nat := 4

def nyfsInoTypeFile : Nat := 1
def nyfsInoTypeDir : Nat := 2
def nyfsDirentTypeFile : Nat := 1
def nyfsDirentTypeDir : Nat := 2

def nyfsNameMax : Nat := 255
def nyfsMaxExtentsPerBlock : Nat := 128
def nyfsMaxTotalAces : Nat := 64
def nyfsDirhashDefaultBuckets : Nat := 16

/-! ## Checksum and hash -/

/-- One round of the inner loop of {lit}`nyfs_crc32`. -/
def crcBit (crc : Nat) : Nat :=
  (crc >>> 1) ^^^ (if crc % 2 = 1 then 0xEDB88320 else 0)

/-- One round of the outer loop of {lit}`nyfs_crc32`. -/
def crcByte (crc : Nat) (byte : UInt8) : Nat :=
  crcBit (crcBit (crcBit (crcBit (crcBit (crcBit (crcBit (crcBit (crc ^^^ byte.toNat))))))))

/-- {lit}`nyfs_crc32`. -/
def nyfsCrc32 (bytes : List UInt8) : Nat :=
  bytes.foldl crcByte 0xFFFFFFFF ^^^ 0xFFFFFFFF

/-- {lit}`nyfs_hash_name`. -/
def nyfsHashName (name : List UInt8) : Nat :=
  name.foldl (fun h b => ((h ^^^ b.toNat) * 16777619) % 2 ^ 32) 2166136261

theorem crcBit_lt {crc : Nat} (h : crc < 2 ^ 32) : crcBit crc < 2 ^ 32 := by
  unfold crcBit
  refine Nat.xor_lt_two_pow ?_ ?_
  · rw [Nat.shiftRight_eq_div_pow]
    omega
  · split
    next => decide
    next => decide

theorem crcByte_lt {crc : Nat} (h : crc < 2 ^ 32) (byte : UInt8) : crcByte crc byte < 2 ^ 32 := by
  have hbyte : byte.toNat < 2 ^ 32 := lt_trans byte.toNat_lt (by decide)
  have hxor : crc ^^^ byte.toNat < 2 ^ 32 := Nat.xor_lt_two_pow h hbyte
  unfold crcByte
  exact crcBit_lt (crcBit_lt (crcBit_lt (crcBit_lt
    (crcBit_lt (crcBit_lt (crcBit_lt (crcBit_lt hxor)))))))

/-- A checksum is a 32-bit number. -/
theorem nyfsCrc32_lt (bytes : List UInt8) : nyfsCrc32 bytes < 2 ^ 32 := by
  have hfold : ∀ (bytes : List UInt8) (crc : Nat), crc < 2 ^ 32 →
      bytes.foldl crcByte crc < 2 ^ 32 := by
    intro bytes
    induction bytes with
    | nil =>
        intro crc h
        exact h
    | cons b bs ih =>
        intro crc h
        exact ih (crcByte crc b) (crcByte_lt h b)
  exact Nat.xor_lt_two_pow (hfold bytes _ (by decide)) (by decide)

/-- A name hash is a 32-bit number. -/
theorem nyfsHashName_lt (name : List UInt8) : nyfsHashName name < 2 ^ 32 := by
  have hfold : ∀ (name : List UInt8) (h : Nat), h < 2 ^ 32 →
      name.foldl (fun h b => ((h ^^^ b.toNat) * 16777619) % 2 ^ 32) h < 2 ^ 32 := by
    intro name
    induction name with
    | nil =>
        intro h hh
        exact hh
    | cons b bs ih =>
        intro h _
        exact ih _ (Nat.mod_lt _ (by decide))
  exact hfold name _ (by decide)

/-! ## Superblock -/

/-- {lit}`nyfs_superblock_t`. -/
structure Superblock where
  magic : Nat
  version : Nat
  superblockSize : Nat
  blockSizeShift : Nat
  allocAlgorithm : Nat
  reserved0 : Nat
  label : Nat
  totalBlocks : Nat
  freeBlocks : Nat
  inodeTableStart : Nat
  inodeCount : Nat
  freeInodeCount : Nat
  allocMetaStart : Nat
  allocMetaBlocks : Nat
  inodeBitmapStart : Nat
  journalStart : Nat
  journalBlocks : Nat
  journalVersion : Nat
  reserved1 : Nat
  reserved2 : Nat
  mountCount : Nat
  lastMountTimeNs : Nat
  lastWriteTimeNs : Nat
  checksum : Nat
  reserved3 : Nat
deriving DecidableEq

/-- The fields of the superblock with their widths in bytes. -/
def Superblock.fields (sb : Superblock) : List (Nat × Nat) :=
  [(4, sb.magic), (4, sb.version), (4, sb.superblockSize), (1, sb.blockSizeShift),
    (1, sb.allocAlgorithm), (2, sb.reserved0), (32, sb.label), (8, sb.totalBlocks),
    (8, sb.freeBlocks), (8, sb.inodeTableStart), (8, sb.inodeCount), (8, sb.freeInodeCount),
    (8, sb.allocMetaStart), (8, sb.allocMetaBlocks), (8, sb.inodeBitmapStart),
    (8, sb.journalStart), (8, sb.journalBlocks), (2, sb.journalVersion), (2, sb.reserved1),
    (4, sb.reserved2), (8, sb.mountCount), (8, sb.lastMountTimeNs), (8, sb.lastWriteTimeNs),
    (4, sb.checksum), (92, sb.reserved3)]

def superblockWidths : List Nat :=
  [4, 4, 4, 1, 1, 2, 32, 8, 8, 8, 8, 8, 8, 8, 8, 8, 8, 2, 2, 4, 8, 8, 8, 4, 92]

def encodeSuperblock (sb : Superblock) : List UInt8 :=
  pack sb.fields

def Superblock.zero : Superblock :=
  ⟨0, 0, 0, 0, 0, 0, 0, 0, 0, 0, 0, 0, 0, 0, 0, 0, 0, 0, 0, 0, 0, 0, 0, 0, 0⟩

def decodeSuperblock (bytes : List UInt8) : Superblock :=
  match unpack superblockWidths bytes with
  | [a, b, c, d, e, f, g, h, i, j, k, l, m, n, o, p, q, r, s, t, u, v, w, x, y] =>
      ⟨a, b, c, d, e, f, g, h, i, j, k, l, m, n, o, p, q, r, s, t, u, v, w, x, y⟩
  | _ => Superblock.zero

/-- Every field fits its width. -/
def Superblock.Fits (sb : Superblock) : Prop :=
  ∀ f ∈ sb.fields, f.2 < 256 ^ f.1

instance (sb : Superblock) : Decidable sb.Fits :=
  inferInstanceAs (Decidable (∀ f ∈ sb.fields, f.2 < 256 ^ f.1))

theorem decodeSuperblock_encode {sb : Superblock} (h : sb.Fits) :
    decodeSuperblock (encodeSuperblock sb) = sb := by
  have hunpack : unpack superblockWidths (encodeSuperblock sb) = sb.fields.map Prod.snd :=
    unpack_pack h
  rw [decodeSuperblock, hunpack]
  rfl

@[simp]
theorem length_encodeSuperblock (sb : Superblock) : (encodeSuperblock sb).length = 256 := by
  rw [encodeSuperblock, length_pack]
  simp [Superblock.fields]

/-! ## Inodes -/

/-- {lit}`nyfs_ace_t`. -/
structure Ace where
  id : Nat
  accessMask : Nat
  type : Nat
  flags : Nat
  reserved : Nat
deriving DecidableEq

def Ace.zero : Ace :=
  ⟨0, 0, 0, 0, 0⟩

def Ace.fields (ace : Ace) : List (Nat × Nat) :=
  [(4, ace.id), (4, ace.accessMask), (1, ace.type), (1, ace.flags), (2, ace.reserved)]

def aceWidths : List Nat :=
  [4, 4, 1, 1, 2]

def encodeAce (ace : Ace) : List UInt8 :=
  pack ace.fields

def decodeAce (bytes : List UInt8) : Ace :=
  match unpack aceWidths bytes with
  | [a, b, c, d, e] => ⟨a, b, c, d, e⟩
  | _ => Ace.zero

/-- {lit}`nyfs_inode_t`.  The inline entries of the access control list are four
fields. -/
structure Inode where
  ino : Nat
  type : Nat
  unixMode : Nat
  uid : Nat
  gid : Nat
  linkCount : Nat
  aceCount : Nat
  reserved0 : Nat
  ace0 : Ace
  ace1 : Ace
  ace2 : Ace
  ace3 : Ace
  aclOverflowBlock : Nat
  aclOverflowCount : Nat
  reserved1 : Nat
  size : Nat
  dataExtentRoot : Nat
  dataExtentDepth : Nat
  reserved2 : Nat
  dirHashRoot : Nat
  dirEntryCount : Nat
  ctime : Nat
  mtime : Nat
  atime : Nat
  lastTxnId : Nat
  checksum : Nat
  reserved3 : Nat
deriving DecidableEq

def Inode.zero : Inode :=
  ⟨0, 0, 0, 0, 0, 0, 0, 0, Ace.zero, Ace.zero, Ace.zero, Ace.zero, 0, 0, 0, 0, 0, 0, 0, 0, 0, 0, 0,
    0, 0, 0, 0⟩

/-- The fields in front of the access control list. -/
def Inode.headFields (x : Inode) : List (Nat × Nat) :=
  [(8, x.ino), (2, x.type), (2, x.unixMode), (4, x.uid), (4, x.gid), (4, x.linkCount),
    (2, x.aceCount), (2, x.reserved0)]

/-- The fields behind the access control list. -/
def Inode.tailFields (x : Inode) : List (Nat × Nat) :=
  [(8, x.aclOverflowBlock), (4, x.aclOverflowCount), (4, x.reserved1), (8, x.size),
    (8, x.dataExtentRoot), (1, x.dataExtentDepth), (7, x.reserved2), (8, x.dirHashRoot),
    (8, x.dirEntryCount), (8, x.ctime), (8, x.mtime), (8, x.atime), (8, x.lastTxnId),
    (4, x.checksum), (88, x.reserved3)]

/-- All fields of an inode with their widths in bytes. -/
def Inode.fields (x : Inode) : List (Nat × Nat) :=
  x.headFields ++ (x.ace0.fields ++ (x.ace1.fields ++ (x.ace2.fields ++ (x.ace3.fields ++
    x.tailFields))))

def inodeHeadWidths : List Nat :=
  [8, 2, 2, 4, 4, 4, 2, 2]

def inodeTailWidths : List Nat :=
  [8, 4, 4, 8, 8, 1, 7, 8, 8, 8, 8, 8, 8, 4, 88]

def encodeInode (x : Inode) : List UInt8 :=
  pack x.headFields ++ (encodeAce x.ace0 ++ (encodeAce x.ace1 ++ (encodeAce x.ace2 ++
    (encodeAce x.ace3 ++ pack x.tailFields))))

def decodeInode (bytes : List UInt8) : Inode :=
  match unpack inodeHeadWidths bytes, unpack inodeTailWidths (bytes.drop 76) with
  | [a, b, c, d, e, f, g, h], [i, j, k, l, m, n, o, p, q, r, s, t, u, v, w] =>
      ⟨a, b, c, d, e, f, g, h, decodeAce (bytes.drop 28), decodeAce (bytes.drop 40),
        decodeAce (bytes.drop 52), decodeAce (bytes.drop 64), i, j, k, l, m, n, o, p, q, r, s, t,
        u, v, w⟩
  | _, _ => Inode.zero

/-- Every field fits its width. -/
def Inode.Fits (x : Inode) : Prop :=
  ∀ f ∈ x.fields, f.2 < 256 ^ f.1

instance (x : Inode) : Decidable x.Fits :=
  inferInstanceAs (Decidable (∀ f ∈ x.fields, f.2 < 256 ^ f.1))

@[simp]
theorem length_encodeAce (ace : Ace) : (encodeAce ace).length = 12 := by
  rw [encodeAce, length_pack]
  rfl

theorem length_inodeHead (x : Inode) : (pack x.headFields).length = 28 := by
  rw [length_pack]
  rfl

@[simp]
theorem length_encodeInode (x : Inode) : (encodeInode x).length = 256 := by
  have htail : (pack x.tailFields).length = 180 := by
    rw [length_pack]
    simp [Inode.tailFields]
  simp only [encodeInode, List.length_append, length_encodeAce, length_inodeHead, htail]

/-- An entry of the access control list is read back from the front of a byte string. -/
theorem decodeAce_encode_append {ace : Ace} (h : ∀ f ∈ ace.fields, f.2 < 256 ^ f.1)
    (rest : List UInt8) : decodeAce (encodeAce ace ++ rest) = ace := by
  have hunpack : unpack aceWidths (encodeAce ace) = ace.fields.map Prod.snd := unpack_pack h
  have hwidths : aceWidths.sum = (encodeAce ace).length := by
    rw [length_encodeAce]
    rfl
  rw [decodeAce, unpack_append hwidths, hunpack]
  rfl

theorem drop_inodeHead (x : Inode) (n : Nat) (rest : List UInt8) :
    (pack x.headFields ++ rest).drop (28 + n) = rest.drop n := by
  rw [List.drop_append, List.drop_eq_nil_of_le (by rw [length_inodeHead]; omega), length_inodeHead,
    Nat.add_sub_cancel_left, List.nil_append]

theorem drop_encodeAce (ace : Ace) (n : Nat) (rest : List UInt8) :
    (encodeAce ace ++ rest).drop (12 + n) = rest.drop n := by
  rw [List.drop_append, List.drop_eq_nil_of_le (by rw [length_encodeAce]; omega), length_encodeAce,
    Nat.add_sub_cancel_left, List.nil_append]

/-- The fields of a part of an inode fit with those of the whole. -/
theorem Inode.Fits.parts {x : Inode} (h : x.Fits) :
    (∀ f ∈ x.headFields, f.2 < 256 ^ f.1) ∧ (∀ f ∈ x.ace0.fields, f.2 < 256 ^ f.1) ∧
      (∀ f ∈ x.ace1.fields, f.2 < 256 ^ f.1) ∧ (∀ f ∈ x.ace2.fields, f.2 < 256 ^ f.1) ∧
      (∀ f ∈ x.ace3.fields, f.2 < 256 ^ f.1) ∧ (∀ f ∈ x.tailFields, f.2 < 256 ^ f.1) := by
  unfold Inode.Fits Inode.fields at h
  simpa only [List.forall_mem_append] using h

theorem decodeInode_encode {x : Inode} (h : x.Fits) : decodeInode (encodeInode x) = x := by
  obtain ⟨hhead, hace0, hace1, hace2, hace3, htail⟩ := h.parts
  have hunpackHead : unpack inodeHeadWidths (encodeInode x) = x.headFields.map Prod.snd := by
    have hwidths : inodeHeadWidths.sum = (pack x.headFields).length := by
      rw [length_inodeHead]
      rfl
    rw [encodeInode, unpack_append hwidths]
    exact unpack_pack hhead
  have hunpackTail : unpack inodeTailWidths ((encodeInode x).drop 76) =
      x.tailFields.map Prod.snd := by
    have hrest : (encodeInode x).drop 76 = pack x.tailFields := by
      rw [encodeInode, drop_inodeHead x 48, drop_encodeAce _ 36, drop_encodeAce _ 24,
        drop_encodeAce _ 12, drop_encodeAce _ 0, List.drop_zero]
    rw [hrest]
    exact unpack_pack htail
  have hread0 : decodeAce ((encodeInode x).drop 28) = x.ace0 := by
    rw [encodeInode, drop_inodeHead x 0, List.drop_zero]
    exact decodeAce_encode_append hace0 _
  have hread1 : decodeAce ((encodeInode x).drop 40) = x.ace1 := by
    rw [encodeInode, drop_inodeHead x 12, drop_encodeAce _ 0, List.drop_zero]
    exact decodeAce_encode_append hace1 _
  have hread2 : decodeAce ((encodeInode x).drop 52) = x.ace2 := by
    rw [encodeInode, drop_inodeHead x 24, drop_encodeAce _ 12, drop_encodeAce _ 0, List.drop_zero]
    exact decodeAce_encode_append hace2 _
  have hread3 : decodeAce ((encodeInode x).drop 64) = x.ace3 := by
    rw [encodeInode, drop_inodeHead x 36, drop_encodeAce _ 24, drop_encodeAce _ 12,
      drop_encodeAce _ 0, List.drop_zero]
    exact decodeAce_encode_append hace3 _
  rw [decodeInode, hunpackTail, hunpackHead, hread0, hread1, hread2, hread3]
  rfl

/-! ## Extents -/

/-- {lit}`nyfs_extent_t`. -/
structure Extent where
  startBlock : Nat
  length : Nat
deriving DecidableEq

def encodeExtent (e : Extent) : List UInt8 :=
  pack [(8, e.startBlock), (8, e.length)]

def decodeExtent (bytes : List UInt8) : Extent where
  startBlock := leNat (bytes.take 8)
  length := leNat ((bytes.drop 8).take 8)

/-- {lit}`nyfs_extent_block_header_t`. -/
structure ExtentHeader where
  magic : Nat
  extentCount : Nat
  nextBlock : Nat
deriving DecidableEq

def encodeExtentHeader (h : ExtentHeader) : List UInt8 :=
  pack [(4, h.magic), (4, h.extentCount), (8, h.nextBlock)]

def decodeExtentHeader (bytes : List UInt8) : ExtentHeader where
  magic := leNat (bytes.take 4)
  extentCount := leNat ((bytes.drop 4).take 4)
  nextBlock := leNat (((bytes.drop 4).drop 4).take 8)

theorem decodeExtent_encode {e : Extent} (hs : e.startBlock < 2 ^ 64) (hl : e.length < 2 ^ 64) :
    decodeExtent (encodeExtent e) = e := by
  have hfits : ∀ f ∈ [(8, e.startBlock), (8, e.length)], f.2 < 256 ^ f.1 := by
    simpa using ⟨hs, hl⟩
  have hunpack := unpack_pack hfits
  simp only [List.map_cons, List.map_nil, unpack, List.cons.injEq, and_true] at hunpack
  rw [decodeExtent, encodeExtent, hunpack.1, hunpack.2]

theorem decodeExtentHeader_encode {h : ExtentHeader} (hm : h.magic < 2 ^ 32)
    (hc : h.extentCount < 2 ^ 32) (hn : h.nextBlock < 2 ^ 64) :
    decodeExtentHeader (encodeExtentHeader h) = h := by
  have hfits : ∀ f ∈ [(4, h.magic), (4, h.extentCount), (8, h.nextBlock)], f.2 < 256 ^ f.1 := by
    simpa using ⟨hm, hc, hn⟩
  have hunpack := unpack_pack hfits
  simp only [List.map_cons, List.map_nil, unpack, List.cons.injEq, and_true] at hunpack
  rw [decodeExtentHeader, encodeExtentHeader, hunpack.1, hunpack.2.1, hunpack.2.2]

@[simp]
theorem length_encodeExtent (e : Extent) : (encodeExtent e).length = 16 := by
  rw [encodeExtent, length_pack]
  rfl

@[simp]
theorem length_encodeExtentHeader (h : ExtentHeader) : (encodeExtentHeader h).length = 16 := by
  rw [encodeExtentHeader, length_pack]
  rfl

/-! ## Directory tables -/

/-- {lit}`nyfs_dirhash_header_t`. -/
structure DirhashHeader where
  magic : Nat
  bucketCount : Nat
  entryCount : Nat
  freeOffset : Nat
  checksum : Nat
  reserved0 : Nat
deriving DecidableEq

def DirhashHeader.fields (h : DirhashHeader) : List (Nat × Nat) :=
  [(4, h.magic), (4, h.bucketCount), (8, h.entryCount), (8, h.freeOffset), (4, h.checksum),
    (4, h.reserved0)]

def encodeDirhashHeader (h : DirhashHeader) : List UInt8 :=
  pack h.fields

def decodeDirhashHeader (bytes : List UInt8) : DirhashHeader :=
  match unpack [4, 4, 8, 8, 4, 4] bytes with
  | [a, b, c, d, e, f] => ⟨a, b, c, d, e, f⟩
  | _ => ⟨0, 0, 0, 0, 0, 0⟩

theorem decodeDirhashHeader_encode {h : DirhashHeader} (hfits : ∀ f ∈ h.fields, f.2 < 256 ^ f.1) :
    decodeDirhashHeader (encodeDirhashHeader h) = h := by
  have hunpack : unpack [4, 4, 8, 8, 4, 4] (encodeDirhashHeader h) = h.fields.map Prod.snd :=
    unpack_pack hfits
  rw [decodeDirhashHeader, hunpack]
  rfl

@[simp]
theorem length_encodeDirhashHeader (h : DirhashHeader) : (encodeDirhashHeader h).length = 32 := by
  rw [encodeDirhashHeader, length_pack]
  rfl

/-- {lit}`nyfs_dirent_t`. -/
structure Dirent where
  ino : Nat
  nextOffset : Nat
  nameHash : Nat
  nameLen : Nat
  fileType : Nat
  reserved0 : Nat
deriving DecidableEq

def Dirent.fields (de : Dirent) : List (Nat × Nat) :=
  [(8, de.ino), (8, de.nextOffset), (4, de.nameHash), (2, de.nameLen), (1, de.fileType),
    (1, de.reserved0)]

def encodeDirent (de : Dirent) : List UInt8 :=
  pack de.fields

def decodeDirent (bytes : List UInt8) : Dirent :=
  match unpack [8, 8, 4, 2, 1, 1] bytes with
  | [a, b, c, d, e, f] => ⟨a, b, c, d, e, f⟩
  | _ => ⟨0, 0, 0, 0, 0, 0⟩

theorem decodeDirent_encode {de : Dirent} (hfits : ∀ f ∈ de.fields, f.2 < 256 ^ f.1) :
    decodeDirent (encodeDirent de) = de := by
  have hunpack : unpack [8, 8, 4, 2, 1, 1] (encodeDirent de) = de.fields.map Prod.snd :=
    unpack_pack hfits
  rw [decodeDirent, hunpack]
  rfl

@[simp]
theorem length_encodeDirent (de : Dirent) : (encodeDirent de).length = 24 := by
  rw [encodeDirent, length_pack]
  rfl

end Nyfs
end Nyxis
