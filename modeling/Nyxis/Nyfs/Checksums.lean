import Nyxis.Nyfs.Runs
import Nyxis.Lib.Crc

/-!
# Checksums

Inode records and the superblock carry a CRC-32 of themselves, taken with the checksum field
zeroed.  A record whose bytes have been altered in a burst of at most 32 bits outside that field, or
in that field only, is refused.

Main results:

- Theorem {lit}`Alters.mismatch`: an alteration shows in the checksum.
- Theorem {lit}`encodeInode_decode`: every string of 256 bytes is the encoding of an inode.
- Theorem {lit}`altered_records_refused`: reading altered inodes and superblocks.
-/

namespace Nyxis
namespace Nyfs

open Bytes

variable {D : Type} [ReliableDevice D]

/-! ## The checksum of a byte string -/

/-- The polynomial of {lit}`nyfs_crc32`. -/
def crcPoly : Nat := 0xEDB88320

theorem nyfsCrc32_eq (bytes : List UInt8) :
    nyfsCrc32 bytes = bytes.foldl (Crc.stepByte crcPoly) 0xFFFFFFFF ^^^ 0xFFFFFFFF :=
  rfl

/-- Two byte strings of one length that differ in a burst have different checksums. -/
theorem nyfsCrc32_ne_of_burst {bytes bytes' : List UInt8} (hlength : bytes'.length = bytes.length)
    {start : Nat} (hne : bytes' ≠ bytes)
    (hbits : ∀ k, bitAt bytes' k ≠ bitAt bytes k → start ≤ k ∧ k < start + 32) :
    nyfsCrc32 bytes' ≠ nyfsCrc32 bytes := by
  have herror : leNat bytes ^^^ leNat bytes' ≠ 0 := by
    intro hzero
    exact hne (leNat_inj hlength (Nat.xor_eq_zero_iff.mp hzero).symm)
  have hwindow : ∀ k, (leNat bytes ^^^ leNat bytes').testBit k = true → start ≤ k ∧ k < start + 32 := by
    intro k hk
    refine hbits k (fun heq => ?_)
    rw [Nat.testBit_xor, testBit_leNat, testBit_leNat, heq, Bool.xor_self] at hk
    cases hk
  have hpow : 2 ^ (8 * bytes.length) = 256 ^ bytes.length := Nat.pow_mul 2 8 bytes.length
  have hlt : leNat bytes ^^^ leNat bytes' < 2 ^ (8 * bytes.length) := by
    refine Nat.xor_lt_two_pow ?_ ?_
    · rw [hpow]
      exact leNat_lt bytes
    · rw [hpow, ← hlength]
      exact leNat_lt bytes'
  have hpoly : crcPoly < 2 ^ (31 + 1) := by decide
  have hregister := Crc.iterate_shiftDown_error hpoly (by decide) herror hwindow hlt
  rw [nyfsCrc32_eq, nyfsCrc32_eq]
  intro heq
  exact hregister ((Crc.foldl_stepByte_eq_iff hlength _).mp (Nat.xor_left_inj.mp heq))

/-! ## Records with a checksum field -/

/-- A byte string with four bytes zeroed. -/
def blank (offset : Nat) (bytes : List UInt8) : List UInt8 :=
  bytes.take offset ++ (leBytes 4 0 ++ bytes.drop (offset + 4))

/-- The checksum that a byte string carries. -/
def storedSum (offset : Nat) (bytes : List UInt8) : Nat :=
  leNat ((bytes.drop offset).take 4)

/-- The bit lies in the checksum field. -/
def InField (offset k : Nat) : Prop :=
  offset * 8 ≤ k ∧ k < offset * 8 + 32

instance (offset k : Nat) : Decidable (InField offset k) :=
  inferInstanceAs (Decidable (_ ∧ _))

/-- The altered bits lie within 32 consecutive ones outside the checksum field, or all in that
field. -/
structure Alters (offset : Nat) (old new : List UInt8) : Prop where
  length : new.length = old.length
  ne : new ≠ old
  bits : (∃ start, ∀ k, bitAt new k ≠ bitAt old k →
      start ≤ k ∧ k < start + 32 ∧ ¬InField offset k) ∨
    ∀ k, bitAt new k ≠ bitAt old k → InField offset k

theorem length_blank {offset : Nat} {bytes : List UInt8} (h : offset + 4 ≤ bytes.length) :
    (blank offset bytes).length = bytes.length := by
  simp only [blank, List.length_append, List.length_take, length_leBytes, List.length_drop]
  omega

theorem inField_iff {offset k : Nat} : InField offset k ↔ offset ≤ k / 8 ∧ k / 8 < offset + 4 := by
  unfold InField
  omega

theorem bitAt_blank {offset : Nat} {bytes : List UInt8} (h : offset + 4 ≤ bytes.length) (k : Nat) :
    bitAt (blank offset bytes) k = if InField offset k then false else bitAt bytes k := by
  have htake : (bytes.take offset).length = offset := by
    rw [List.length_take]
    omega
  have hzero : (leBytes 4 0).length = 4 := length_leBytes 4 0
  unfold bitAt blank
  rw [List.getD_eq_getElem?_getD, List.getD_eq_getElem?_getD]
  by_cases hlow : k / 8 < offset
  · rw [if_neg (by rw [inField_iff]; omega), List.getElem?_append_left (by omega),
      List.getElem?_take_of_lt hlow]
  · rw [List.getElem?_append_right (by omega), htake]
    by_cases hmid : k / 8 < offset + 4
    · rw [if_pos (by rw [inField_iff]; omega), List.getElem?_append_left (by omega)]
      have hfour : k / 8 - offset < 4 := by omega
      generalize k / 8 - offset = j at hfour
      interval_cases j <;> simp [leBytes]
    · rw [if_neg (by rw [inField_iff]; omega), List.getElem?_append_right (by omega), hzero, List.getElem?_drop,
        show offset + 4 + (k / 8 - offset - 4) = k / 8 by omega]

theorem testBit_storedSum (offset : Nat) (bytes : List UInt8) (j : Nat) :
    (storedSum offset bytes).testBit j =
      if j < 32 then bitAt bytes (offset * 8 + j) else false := by
  rw [storedSum, testBit_leNat, bitAt, List.getD_eq_getElem?_getD]
  by_cases hj : j < 32
  · rw [if_pos hj, List.getElem?_take_of_lt (by omega), List.getElem?_drop, bitAt,
      List.getD_eq_getElem?_getD, show (offset * 8 + j) / 8 = offset + j / 8 by omega,
      show (offset * 8 + j) % 8 = j % 8 by omega]
  · rw [if_neg hj, List.getElem?_eq_none (by rw [List.length_take]; omega)]
    exact Nat.zero_testBit _

/-- Byte strings of one length with the same bits are the same. -/
theorem eq_of_bitAt {bytes bytes' : List UInt8} (hlength : bytes'.length = bytes.length)
    (h : ∀ k, bitAt bytes' k = bitAt bytes k) : bytes' = bytes := by
  refine leNat_inj hlength (Nat.eq_of_testBit_eq (fun k => ?_))
  rw [testBit_leNat, testBit_leNat, h k]

/-- A record that carries its checksum does not do so when it is altered. -/
theorem Alters.mismatch {offset : Nat} {old new : List UInt8} (h : Alters offset old new)
    (hoffset : offset + 4 ≤ old.length)
    (hvalid : storedSum offset old = nyfsCrc32 (blank offset old)) :
    nyfsCrc32 (blank offset new) ≠ storedSum offset new := by
  have hoffset' : offset + 4 ≤ new.length := by
    rw [h.length]
    exact hoffset
  have hlength : (blank offset new).length = (blank offset old).length := by
    rw [length_blank hoffset, length_blank hoffset', h.length]
  rcases h.bits with ⟨start, hburst⟩ | hfield
  · -- the field is the same, and the rest differs in a burst
    have hsum : storedSum offset new = storedSum offset old := by
      refine Nat.eq_of_testBit_eq (fun j => ?_)
      rw [testBit_storedSum, testBit_storedSum]
      split
      next hj =>
        by_contra hne
        exact (hburst _ hne).2.2 ⟨by omega, by omega⟩
      next => rfl
    rw [hsum, hvalid]
    have hwindow : ∀ k, bitAt (blank offset new) k ≠ bitAt (blank offset old) k →
        start ≤ k ∧ k < start + 32 := by
      intro k hk
      rw [bitAt_blank hoffset, bitAt_blank hoffset'] at hk
      split at hk
      next => exact absurd rfl hk
      next =>
        obtain ⟨hlo, hhi, -⟩ := hburst k hk
        exact ⟨hlo, hhi⟩
    refine nyfsCrc32_ne_of_burst hlength (fun heq => h.ne ?_) hwindow
    refine eq_of_bitAt h.length (fun k => ?_)
    by_contra hne
    have hbit := congrArg (fun bytes => bitAt bytes k) heq
    simp only [bitAt_blank hoffset, bitAt_blank hoffset', if_neg (hburst k hne).2.2] at hbit
    exact hne hbit
  · -- the rest is the same, and the field differs
    have hblank : blank offset new = blank offset old := by
      refine eq_of_bitAt hlength (fun k => ?_)
      rw [bitAt_blank hoffset, bitAt_blank hoffset']
      split
      next => rfl
      next hout =>
        by_contra hne
        exact hout (hfield k hne)
    rw [hblank, ← hvalid]
    intro hsum
    refine h.ne (eq_of_bitAt h.length (fun k => ?_))
    by_contra hne
    obtain ⟨hlo, hhi⟩ := hfield k hne
    have hbit := congrArg (fun sum : Nat => sum.testBit (k - offset * 8)) hsum
    simp only [testBit_storedSum, if_pos (show k - offset * 8 < 32 by omega),
      Nat.add_sub_cancel' hlo] at hbit
    exact hne hbit.symm

/-- The parts of a byte string around its checksum. -/
theorem blank_append {front field back : List UInt8} (hfield : field.length = 4) :
    blank front.length (front ++ (field ++ back)) = front ++ (leBytes 4 0 ++ back) ∧
      storedSum front.length (front ++ (field ++ back)) = leNat field := by
  have hdrop : (front ++ (field ++ back)).drop (front.length + 4) = back := by
    rw [← List.drop_drop, List.drop_left, List.drop_left' hfield]
  rw [blank, storedSum, List.take_left, hdrop, List.drop_left, List.take_left' hfield]
  exact ⟨rfl, rfl⟩

/-! ## Inodes -/

/-- The place of the checksum in an inode record. -/
def inodeSumOffset : Nat := 164

/-- The bytes of an inode in front of its checksum. -/
def inodeFront (x : Inode) : List UInt8 :=
  pack x.headFields ++ (encodeAce x.ace0 ++ (encodeAce x.ace1 ++ (encodeAce x.ace2 ++
    (encodeAce x.ace3 ++ pack (x.tailFields.take 13)))))

theorem encodeInode_split (x : Inode) :
    encodeInode x = inodeFront x ++ (leBytes 4 x.checksum ++ leBytes 88 x.reserved3) := by
  have htail : pack x.tailFields =
      pack (x.tailFields.take 13) ++ (leBytes 4 x.checksum ++ leBytes 88 x.reserved3) := by
    conv_lhs => rw [← List.take_append_drop 13 x.tailFields, pack_append]
    rw [show x.tailFields.drop 13 = [(4, x.checksum), (88, x.reserved3)] from rfl, pack, pack, pack,
      List.append_nil]
  rw [encodeInode, htail, inodeFront]
  simp only [List.append_assoc]

theorem length_inodeFront (x : Inode) : (inodeFront x).length = inodeSumOffset := by
  have htail : (pack (x.tailFields.take 13)).length = 88 := by
    rw [length_pack]
    simp [Inode.tailFields]
  simp only [inodeFront, List.length_append, length_encodeAce, length_inodeHead, htail]
  rfl

/-- The checksum of an inode is that of its record with the field zeroed. -/
theorem inodeChecksum_eq {x : Inode} (hsum : x.checksum < 2 ^ 32) :
    inodeChecksum x = nyfsCrc32 (blank inodeSumOffset (encodeInode x)) ∧
      storedSum inodeSumOffset (encodeInode x) = x.checksum := by
  have hparts := @blank_append (inodeFront x) _ (leBytes 88 x.reserved3)
    (length_leBytes 4 x.checksum)
  rw [← encodeInode_split, length_inodeFront] at hparts
  rw [hparts.1, hparts.2, inodeChecksum, encodeInode_split]
  exact ⟨rfl, leNat_leBytes hsum⟩

theorem encodeAce_decode {bytes : List UInt8} (h : 12 ≤ bytes.length) :
    encodeAce (decodeAce bytes) = bytes.take 12 :=
  @pack_unpack aceWidths bytes h

theorem headFields_decodeInode (bytes : List UInt8) :
    (decodeInode bytes).headFields = inodeHeadWidths.zip (unpack inodeHeadWidths bytes) := by
  simp only [decodeInode, inodeHeadWidths, inodeTailWidths, unpack, Inode.headFields,
    List.zip_cons_cons, List.zip_nil_left]

theorem tailFields_decodeInode (bytes : List UInt8) :
    (decodeInode bytes).tailFields =
      inodeTailWidths.zip (unpack inodeTailWidths (bytes.drop 76)) := by
  simp only [decodeInode, inodeHeadWidths, inodeTailWidths, unpack, Inode.tailFields,
    List.zip_cons_cons, List.zip_nil_left]

/-- Every string of 256 bytes is the record of an inode. -/
theorem encodeInode_decode {bytes : List UInt8} (h : bytes.length = 256) :
    encodeInode (decodeInode bytes) = bytes := by
  have hhead : pack (decodeInode bytes).headFields = bytes.take 28 := by
    rw [headFields_decodeInode, pack_unpack (by rw [h]; decide)]
    rfl
  have htail : pack (decodeInode bytes).tailFields = (bytes.drop 76).take 180 := by
    rw [tailFields_decodeInode, pack_unpack (by rw [List.length_drop, h]; decide)]
    rfl
  have hace : ∀ n, n + 12 ≤ 256 →
      encodeAce (decodeAce (bytes.drop n)) = (bytes.drop n).take 12 := by
    intro n hn
    exact encodeAce_decode (by rw [List.length_drop]; omega)
  have hjoin : ∀ n m, (bytes.drop n).take m ++ bytes.drop (n + m) = bytes.drop n := by
    intro n m
    rw [← List.drop_drop, List.take_append_drop]
  have hlast : (bytes.drop 76).take 180 = bytes.drop 76 :=
    List.take_of_length_le (by rw [List.length_drop]; omega)
  change pack (decodeInode bytes).headFields ++ (encodeAce (decodeAce (bytes.drop 28)) ++
    (encodeAce (decodeAce (bytes.drop 40)) ++ (encodeAce (decodeAce (bytes.drop 52)) ++
      (encodeAce (decodeAce (bytes.drop 64)) ++ pack (decodeInode bytes).tailFields)))) = bytes
  rw [hhead, htail, hlast, hace 28 (by decide), hace 40 (by decide), hace 52 (by decide),
    hace 64 (by decide), hjoin 64 12, hjoin 52 12, hjoin 40 12, hjoin 28 12, List.take_append_drop]

/-- The checksum that is computed for a record, and the one that it carries. -/
theorem decodeInode_sums {bytes : List UInt8} (h : bytes.length = 256) :
    inodeChecksum (decodeInode bytes) = nyfsCrc32 (blank inodeSumOffset bytes) ∧
      (decodeInode bytes).checksum = storedSum inodeSumOffset bytes := by
  have hsum : (decodeInode bytes).checksum < 2 ^ 32 :=
    lt_of_lt_of_le (leNat_lt _) (Nat.pow_le_pow_right (by decide) (List.length_take_le 4 _))
  have heq := inodeChecksum_eq hsum
  rw [encodeInode_decode h] at heq
  exact ⟨heq.1, heq.2.symm⟩

/-- Reading an altered record of an inode fails. -/
theorem readInode_altered {ino : Nat} {x : Inode} {v v' : Volume D} {d : D}
    (hwrite : writeInode ino x v = (.ok (), v'))
    (halters : Alters inodeSumOffset
      (bytesAt (ReliableDevice.content v'.disk)
        ((v'.sb.inodeTableStart * v'.blockSize + ino * 256) % 2 ^ 64) 256)
      (bytesAt (ReliableDevice.content d)
        ((v'.sb.inodeTableStart * v'.blockSize + ino * 256) % 2 ^ 64) 256)) :
    (readInode ino { v' with disk := d }).1 = .error (.status .Ncorrupted) := by
  unfold writeInode at hwrite
  rw [Eff.gets_bind_run] at hwrite
  split at hwrite
  next => cases hwrite
  next hgood =>
    rw [inodeOffset, Eff.gets_bind_run] at hwrite
    obtain ⟨hsame, hbytes⟩ := rawWrite_ok hwrite
    rw [length_encodeInode] at hbytes
    have hsb : v'.sb = v.sb := by
      rw [hsame]
    have hsize : v'.blockSize = v.blockSize := by
      rw [hsame]
    rw [← hsb, ← hsize] at hbytes
    rw [hbytes] at halters
    have hvalid := inodeChecksum_eq (x := sealInode ino x) (nyfsCrc32_lt _)
    have hmismatch := halters.mismatch (by rw [length_encodeInode]; decide)
      (hvalid.2.trans hvalid.1)
    obtain ⟨hcomputed, hstored⟩ := decodeInode_sums (length_bytesAt (ReliableDevice.content d)
      ((v'.sb.inodeTableStart * v'.blockSize + ino * 256) % 2 ^ 64) 256)
    rw [← hcomputed, ← hstored] at hmismatch
    unfold readInode
    rw [Eff.gets_bind_run, if_neg (by dsimp only; rw [hsb]; exact hgood), inodeOffset,
      Eff.gets_bind_run, Eff.bind_ok (rawRead_eq _ _ _)]
    dsimp only
    by_cases hino : (decodeInode (bytesAt (ReliableDevice.content d)
        ((v'.sb.inodeTableStart * v'.blockSize + ino * 256) % 2 ^ 64) 256)).ino ≠ ino
    · rw [if_pos hino]
      rfl
    · rw [if_neg hino, if_pos hmismatch]
      rfl

/-! ## The superblock -/

/-- The place of the checksum in the superblock. -/
def superblockSumOffset : Nat := 160

theorem encodeSuperblock_split (sb : Superblock) :
    encodeSuperblock sb =
      pack (sb.fields.take 23) ++ (leBytes 4 sb.checksum ++ leBytes 92 sb.reserved3) := by
  rw [encodeSuperblock]
  conv_lhs => rw [← List.take_append_drop 23 sb.fields, pack_append]
  rw [show sb.fields.drop 23 = [(4, sb.checksum), (92, sb.reserved3)] from rfl, pack, pack, pack,
    List.append_nil]

theorem length_superblockFront (sb : Superblock) :
    (pack (sb.fields.take 23)).length = superblockSumOffset := by
  rw [length_pack]
  simp [Superblock.fields, superblockSumOffset]

/-- The checksum of a superblock is that of its bytes with the field zeroed. -/
theorem superblockChecksum_eq {sb : Superblock} (hsum : sb.checksum < 2 ^ 32) :
    (sealSuperblock sb).checksum = nyfsCrc32 (blank superblockSumOffset (encodeSuperblock sb)) ∧
      storedSum superblockSumOffset (encodeSuperblock sb) = sb.checksum := by
  have hparts := @blank_append (pack (sb.fields.take 23)) _ (leBytes 92 sb.reserved3)
    (length_leBytes 4 sb.checksum)
  rw [← encodeSuperblock_split, length_superblockFront] at hparts
  rw [hparts.1, hparts.2, sealSuperblock, encodeSuperblock_split]
  exact ⟨rfl, leNat_leBytes hsum⟩

theorem fields_decodeSuperblock (bytes : List UInt8) :
    (decodeSuperblock bytes).fields = superblockWidths.zip (unpack superblockWidths bytes) := by
  simp only [decodeSuperblock, superblockWidths, unpack, Superblock.fields, List.zip_cons_cons,
    List.zip_nil_left]

theorem decodeSuperblock_fits (bytes : List UInt8) : (decodeSuperblock bytes).Fits := by
  rw [Superblock.Fits, fields_decodeSuperblock]
  exact unpack_lt

theorem Superblock.Fits.checksum_lt {sb : Superblock} (h : sb.Fits) : sb.checksum < 2 ^ 32 :=
  h (4, sb.checksum) (by simp [Superblock.fields])

/-- Every string of 256 bytes is the encoding of a superblock. -/
theorem encodeSuperblock_decode {bytes : List UInt8} (h : bytes.length = 256) :
    encodeSuperblock (decodeSuperblock bytes) = bytes := by
  rw [encodeSuperblock, fields_decodeSuperblock, pack_unpack (by rw [h]; decide)]
  exact List.take_of_length_le (by rw [h]; decide)

theorem decodeSuperblock_sums {bytes : List UInt8} (h : bytes.length = 256) :
    (sealSuperblock (decodeSuperblock bytes)).checksum =
        nyfsCrc32 (blank superblockSumOffset bytes) ∧
      (decodeSuperblock bytes).checksum = storedSum superblockSumOffset bytes := by
  have heq := superblockChecksum_eq (decodeSuperblock_fits bytes).checksum_lt
  rw [encodeSuperblock_decode h] at heq
  exact ⟨heq.1, heq.2.symm⟩

/-- An altered superblock does not pass the tests. -/
theorem checkSuperblock_altered {v v' : Volume D} {d : D} (hflush : flushSuperblock v = (.ok (), v'))
    (halters : Alters superblockSumOffset (bytesAt (ReliableDevice.content v'.disk) 0 256)
      (bytesAt (ReliableDevice.content d) 0 256)) :
    ∃ e, checkSuperblock (decodeSuperblock (bytesAt (ReliableDevice.content d) 0 256)) = some e := by
  rw [flushSuperblock, Eff.modify_bind_run, Eff.gets_bind_run] at hflush
  obtain ⟨-, hbytes⟩ := rawWrite_ok hflush
  rw [length_encodeSuperblock, Nat.zero_mod] at hbytes
  rw [hbytes] at halters
  have hvalid := @superblockChecksum_eq (sealSuperblock v.sb) (nyfsCrc32_lt _)
  have hmismatch := halters.mismatch (by rw [length_encodeSuperblock]; decide)
    (hvalid.2.trans hvalid.1)
  obtain ⟨hcomputed, hstored⟩ := decodeSuperblock_sums
    (length_bytesAt (ReliableDevice.content d) 0 256)
  rw [← hcomputed, ← hstored] at hmismatch
  cases hcheck : checkSuperblock (decodeSuperblock (bytesAt (ReliableDevice.content d) 0 256)) with
  | some e => exact ⟨e, rfl⟩
  | none =>
      rw [checkSuperblock, ite_eq_iff, ite_eq_iff, if_pos hmismatch] at hcheck
      rcases hcheck with ⟨-, hbad⟩ | ⟨-, ⟨-, hbad⟩ | ⟨-, hbad⟩⟩
      · cases hbad
      · cases hbad
      · cases hbad

/-- An inode record that {lit}`nyfs_write_inode` has written and a superblock that
{lit}`nyfs_flush_superblock` has written are refused after every burst of at most 32 bits outside the
checksum field and after every change of that field. -/
theorem altered_records_refused :
    (∀ (v v' : Volume D) (ino : Nat) (x : Inode) (d : D), writeInode ino x v = (.ok (), v') →
      Alters inodeSumOffset
        (bytesAt (ReliableDevice.content v'.disk)
          ((v'.sb.inodeTableStart * v'.blockSize + ino * 256) % 2 ^ 64) 256)
        (bytesAt (ReliableDevice.content d)
          ((v'.sb.inodeTableStart * v'.blockSize + ino * 256) % 2 ^ 64) 256) →
      ∃ e, (readInode ino { v' with disk := d }).1 = .error (.status e)) ∧
    ∀ (v v' : Volume D) (d : D) (writable : Bool), flushSuperblock v = (.ok (), v') →
      Alters superblockSumOffset (bytesAt (ReliableDevice.content v'.disk) 0 256)
        (bytesAt (ReliableDevice.content d) 0 256) →
      (∃ e, (volumeOpen d writable).1 = .error (.status e)) ∧
        ∃ e, (mountVolume d writable).1 = .error (.status e) := by
  refine ⟨fun v v' ino x d hwrite halters => ⟨_, readInode_altered hwrite halters⟩,
    fun v v' d writable hflush halters => ?_⟩
  obtain ⟨e, he⟩ := checkSuperblock_altered hflush halters
  refine ⟨⟨e, ?_⟩, e, ?_⟩
  · rw [volumeOpen]
    dsimp only
    rw [Eff.bind_ok (rawRead_eq _ 0 256), Nat.zero_mod, he]
    rfl
  · rw [mountVolume]
    dsimp only
    rw [Eff.bind_ok (rawRead_eq _ 0 256), Nat.zero_mod, he]
    rfl

theorem bitAt_bytesAt (f : Nat → UInt8) (offset n k : Nat) :
    bitAt (bytesAt f offset n) k =
      if k / 8 < n then (f (offset + k / 8)).toNat.testBit (k % 8) else false := by
  rw [bitAt, List.getD_eq_getElem?_getD]
  split
  next hlt =>
    rw [getElem?_bytesAt f offset hlt]
    rfl
  next hge =>
    rw [List.getElem?_eq_none (by rw [length_bytesAt]; omega)]
    exact Nat.zero_testBit _

/-- One byte in front of the checksum is changed. -/
theorem alters_one_byte (f : Nat → UInt8) (start offset : Nat) (hoffset : 8 < offset) :
    Alters offset (bytesAt f start 256) (bytesAt (splice f (start + 8) [f (start + 8) + 1]) start 256) := by
  have hother : ∀ j, j ≠ 8 → splice f (start + 8) [f (start + 8) + 1] (start + j) = f (start + j) := by
    intro j hj
    rcases Nat.lt_or_gt_of_ne hj with hlt | hgt
    · exact splice_of_lt f _ (by omega)
    · exact splice_of_ge f (by rw [List.length_singleton]; omega)
  refine ⟨by rw [length_bytesAt, length_bytesAt], fun heq => ?_, Or.inl ⟨64, fun k hk => ?_⟩⟩
  · have hbyte := congrArg (fun bytes : List UInt8 => bytes[8]?) heq
    have hself : splice f (start + 8) [f (start + 8) + 1] (start + 8) = f (start + 8) + 1 := by
      simp [splice]
    simp only [getElem?_bytesAt _ _ (show 8 < 256 by decide), hself] at hbyte
    have hzero : f (start + 8) + 1 = f (start + 8) := Option.some.inj hbyte
    simp at hzero
  · have hk8 : k / 8 = 8 := by
      by_contra hne
      rw [bitAt_bytesAt, bitAt_bytesAt, hother _ hne] at hk
      exact hk rfl
    rw [inField_iff]
    omega

/-- A volume in memory with two inodes. -/
def memoryVolume : Volume MemoryDisk :=
  ⟨⟨fun _ => 0⟩, true, { Superblock.zero with inodeCount := 2, inodeTableStart := 1 }, 512⟩

theorem altered_records_refused_small : ∃ (v : Volume MemoryDisk) (d : MemoryDisk),
    writeInode nyfsRootIno Inode.zero memoryVolume = (.ok (), v) ∧
      Alters inodeSumOffset
        (bytesAt v.disk.bytes ((v.sb.inodeTableStart * v.blockSize + nyfsRootIno * 256) % 2 ^ 64) 256)
        (bytesAt d.bytes ((v.sb.inodeTableStart * v.blockSize + nyfsRootIno * 256) % 2 ^ 64) 256) ∧
      ∃ e, (readInode nyfsRootIno { v with disk := d }).1 = .error (.status e) := by
  obtain ⟨v, hwrite⟩ : ∃ v, writeInode nyfsRootIno Inode.zero memoryVolume = (.ok (), v) := ⟨_, rfl⟩
  have halters := alters_one_byte v.disk.bytes
    ((v.sb.inodeTableStart * v.blockSize + nyfsRootIno * 256) % 2 ^ 64) inodeSumOffset (by decide)
  exact ⟨v, ⟨_⟩, hwrite, halters, altered_records_refused.1 _ v nyfsRootIno Inode.zero ⟨_⟩ hwrite
    halters⟩

end Nyfs
end Nyxis
