import Nyxis.Nyfs.CacheRuns
import Nyxis.Nyfs.Contents
import Nyxis.Vfs.Stores

/-!
# The NyFS driver stores files

The driver keeps the promises of a {lit}`FileStore` for every handle whose slot and vnode name one
live inode of a sound volume.  The content of such a file is what a read of all of it returns.

Main results:

- Theorems {lit}`FileWrite.keeps_before` and {lit}`FileWrite.stored`: the bytes of a file after a
  write, whatever its outcome.
- Definition {lit}`nyfsStore`: the driver as a store of files.
-/

namespace Nyxis
namespace Nyfs

open Vfs

variable {D : Type} [ReliableDevice D] {L : Layout} {V V' : View} {nodes nodes' : Nat → Node}
variable {i k : Nat}

/-! ## Contents under a write -/

theorem Node.getElem?_content (L : Layout) (V : View) (n : Node) (x : Inode) (o : Nat) (b : UInt8) :
    (n.content L V x)[o]? = some b ↔
      o < x.size ∧ o < capacity L n.data ∧ streamAt L V (dataBlocks n.data) o = b := by
  rw [Node.content]
  by_cases ho : o < min x.size (capacity L n.data)
  · rw [getElem?_bytesAt _ _ ho, Nat.zero_add, Option.some_inj]
    constructor
    · intro hb
      exact ⟨by omega, by omega, hb⟩
    · exact fun hb => hb.2.2
  · rw [List.getElem?_eq_none (by rw [length_bytesAt]; omega)]
    constructor
    · intro hb
      cases hb
    · rintro ⟨hsize, hcap, -⟩
      exact absurd (lt_min hsize hcap) ho

/-- A longer stream has the same bytes at the front. -/
theorem streamAt_of_grown {blocks blocks' : List Nat} (V : View) (hgrown : blocks <+: blocks')
    {o : Nat} (ho : o < blocks.length * L.blockSize) :
    streamAt L V blocks' o = streamAt L V blocks o := by
  obtain ⟨more, rfl⟩ := hgrown
  exact streamAt_append_left V more ho

/-- No byte before the place of a write is lost, whether it succeeds or not. -/
theorem FileWrite.keeps_before {off : Nat} {bytes : List UInt8} {r : Except Stop Nat}
    (h : FileWrite L V nodes i off bytes V' nodes' r) (o : Nat) (b : UInt8) (ho : o < off)
    (hb : ((nodes i).content L V (V.inode i))[o]? = some b) :
    ((nodes' i).content L V' (V'.inode i))[o]? = some b := by
  rw [Node.getElem?_content] at hb ⊢
  obtain ⟨hsize, hcap, hat⟩ := hb
  cases h with
  | written ds root hplan hdata hinode hbits hstream =>
      have hgrown : dataBlocks (nodes i).data <+: dataBlocks (nodes' i).data := ⟨_, hdata.symm⟩
      refine ⟨?_, Nat.lt_of_lt_of_le hcap (capacity_mono hgrown), ?_⟩
      · rw [hinode]
        exact Nat.lt_of_lt_of_le hsize (Nat.le_max_left ..)
      · rw [hstream, splice_of_lt _ _ ho, streamAt_of_grown V hgrown hcap, hat]
  | full taken hne hplan htaken hsame hinode hbits hfresh hgrown hstream =>
      refine ⟨by rw [hinode]; exact hsize, Nat.lt_of_lt_of_le hcap (capacity_mono hgrown), ?_⟩
      rw [streamAt_of_grown V' hgrown hcap, hstream o hcap, hat]
  | wrapped ds hne hplan hwrap hlt hinode hbits hfresh hgrown hkept hstream =>
      refine ⟨by rw [hinode]; exact hsize, Nat.lt_of_lt_of_le hcap (capacity_mono hgrown), ?_⟩
      rw [streamAt_of_grown V' hgrown hcap, hstream o hcap, splice_of_lt _ _ ho, hat]

/-- A write that succeeds has stored all of its bytes. -/
theorem FileWrite.stored {off n : Nat} {bytes : List UInt8}
    (h : FileWrite L V nodes i off bytes V' nodes' (.ok n))
    (hbound : capacity L (nodes' i).data < 2 ^ 64) :
    n ≤ bytes.length ∧
      ∀ j, j < n → ((nodes' i).content L V' (V'.inode i))[off + j]? = bytes[j]? := by
  obtain ⟨r, hr⟩ : ∃ r : Except Stop Nat, r = .ok n := ⟨_, rfl⟩
  rw [← hr] at h
  cases h with
  | full => cases hr
  | wrapped => cases hr
  | written ds root hplan hdata hinode hbits hstream hle =>
      cases hr
      refine ⟨Nat.le_refl _, ?_⟩
      intro j hj
      have hne : bytes ≠ [] := by
        intro hnil
        rw [hnil] at hj
        exact Nat.not_lt_zero j hj
      have hend := hle hne
      rw [List.getElem?_eq_getElem hj, Node.getElem?_content]
      refine ⟨?_, by omega, ?_⟩
      · rw [hinode]
        change off + j < max (V.inode i).size ((off + bytes.length) % 2 ^ 64)
        rw [Nat.mod_eq_of_lt (by omega)]
        exact Nat.lt_of_lt_of_le (by omega) (Nat.le_max_right ..)
      · rw [hstream]
        have hmem : some (splice (streamAt L V (dataBlocks (nodes' i).data)) off bytes (off + j)) =
            bytes[j]? := splice_of_mem _ hj
        rw [List.getElem?_eq_getElem hj] at hmem
        exact Option.some.inj hmem

/-! ## Open files -/

/-- The slot and the vnode of a handle name a live inode of a sound volume. -/
structure OpenFile (d : Drivers (NyfsState D)) (h : Handle) (k i : Nat) : Prop where
  vnode : ∃ n, h.vnode = some n ∧ VnodeOf d n k i
  handle : handleInode d h = some (k, i)
  volume : ∃ L nodes, Sound L (d.fs.volumes k) nodes ∧ Live L (d.fs.volumes k).view i

/-- The bytes of the file of a handle: all of them are read. -/
def nyfsContent (d : Drivers (NyfsState D)) (h : Handle) : List UInt8 :=
  match handleInode d h with
  | none => []
  | some (k, i) =>
      match (fileRead i 0 (2 ^ 64) (d.fs.volumes k)).1 with
      | .error _ => []
      | .ok bytes => bytes

variable {d : Drivers (NyfsState D)} {h g : Handle} {j l : Nat}

theorem Sound.content_lt {v : Volume D} (hs : Sound L v nodes) (hi : Live L v.view i) :
    ((nodes i).content L v.view (v.view.inode i)).length < 2 ^ 64 := by
  have hfits := (hs.inventory.holds i hi).fits
  rw [Inode.fits_iff] at hfits
  rw [Node.length_content]
  exact Nat.lt_of_le_of_lt (Nat.min_le_left ..) hfits.2.2.2.2.2.1

/-- The content that the driver reads is that of the inventory. -/
theorem nyfsContent_eq (hinode : handleInode d h = some (k, i))
    (hs : Sound L (d.fs.volumes k) nodes) (hi : Live L (d.fs.volumes k).view i) :
    nyfsContent d h =
      (nodes i).content L (d.fs.volumes k).view ((d.fs.volumes k).view.inode i) := by
  have hlt := hs.content_lt hi
  rw [nyfsContent, hinode]
  dsimp only
  rw [hs.fileRead hi, List.drop_zero]
  exact List.take_of_length_le (by omega)

/-- Reading through the handle of an open file returns a piece of its content. -/
theorem OpenFile.nyfsRead (hopen : OpenFile d h k i) (size : Nat) :
    Nyfs.nyfsRead h size d = (.ok (((nyfsContent d h).drop h.offset).take size), d) := by
  obtain ⟨L, nodes, hs, hi⟩ := hopen.volume
  have hentry := handleEntry_eq d h
  rw [hopen.handle] at hentry
  rw [Nyfs.nyfsRead, Eff.bind_ok hentry]
  dsimp only
  rw [onVolume_reads (reads_fileRead i h.offset size), hs.fileRead hi,
    nyfsContent_eq hopen.handle hs hi]

theorem OpenFile.nyfsStat (hopen : OpenFile d h k i) {n : Nat} (hn : h.vnode = some n) :
    ∃ st, Nyfs.nyfsStat n d = (.ok st, d) ∧ st.size < 2 ^ 64 := by
  obtain ⟨L, nodes, hs, hi⟩ := hopen.volume
  obtain ⟨m, hm, hvnode⟩ := hopen.vnode
  rw [hn] at hm
  cases hm
  obtain ⟨v', hrun, -⟩ := (hs.inventory.toOwned.does_readInode (D := D) hs.valid hi).run hs.valid
    hs.mounted rfl
  have hfits := (hs.inventory.holds i hi).fits
  rw [Inode.fits_iff] at hfits
  refine ⟨⟨((d.fs.volumes k).view.inode i).size, vnodeType ((d.fs.volumes k).view.inode i)⟩, ?_,
    hfits.2.2.2.2.2.1⟩
  have hread : onVolume k (readInode i) d = (.ok ((d.fs.volumes k).view.inode i), d) := by
    rw [onVolume_reads (reads_readInode i), hrun]
  rw [Nyfs.nyfsStat, Eff.bind_ok hvnode.run]
  dsimp only
  rw [Eff.bind_ok hread]
  rfl

/-- Writing through the handle of an open file writes to its inode. -/
theorem OpenFile.nyfsWrite (hopen : OpenFile d h k i) (bytes : List UInt8) :
    Nyfs.nyfsWrite h bytes d = ((fileWrite i h.offset bytes (d.fs.volumes k)).1,
      withVolume d k (fileWrite i h.offset bytes (d.fs.volumes k)).2) := by
  have hentry := handleEntry_eq d h
  rw [hopen.handle] at hentry
  rw [Nyfs.nyfsWrite, Eff.bind_ok hentry]
  rfl

/-- A file stays open when some file of a volume is written. -/
theorem OpenFile.written (hg : OpenFile d g l j) (hopen : OpenFile d h k i) (off : Nat)
    (bytes : List UInt8) :
    OpenFile (withVolume d k (fileWrite i off bytes (d.fs.volumes k)).2) g l j := by
  refine ⟨?_, hg.handle, ?_⟩
  · obtain ⟨n, hn, hentry⟩ := hg.vnode
    exact ⟨n, hn, ⟨hentry.entry⟩⟩
  · by_cases hl : l = k
    · subst hl
      obtain ⟨L, nodes, hs, hi⟩ := hopen.volume
      obtain ⟨L', nodes', hs', hj⟩ := hg.volume
      have hL : L' = L := hs'.mounted.layout.symm.trans hs.mounted.layout
      subst hL
      obtain ⟨nodes'', hsound, htouches, -⟩ := hs.fileWrite_step hi off bytes
      rw [withVolume_self]
      exact ⟨L', nodes'', hsound, (live_congr htouches.inodeBit).mpr hj⟩
    · obtain ⟨L, nodes, hs, hj⟩ := hg.volume
      have hother : (withVolume d k (fileWrite i off bytes (d.fs.volumes k)).2).fs.volumes l =
          d.fs.volumes l := Function.update_of_ne hl ..
      rw [hother]
      exact ⟨L, nodes, hs, hj⟩

/-- The content of an open file after its volume has changed. -/
theorem OpenFile.nyfsContent_written (hopen : OpenFile d h k i) {v : Volume D}
    (hs : Sound L v nodes) (hi : Live L v.view i) :
    nyfsContent (withVolume d k v) h = (nodes i).content L v.view (v.view.inode i) := by
  have hvolume := withVolume_self d k v
  have hsound : Sound L ((withVolume d k v).fs.volumes k) nodes := by
    rw [hvolume]
    exact hs
  have hlive : Live L ((withVolume d k v).fs.volumes k).view i := by
    rw [hvolume]
    exact hi
  have heq := nyfsContent_eq (d := withVolume d k v) hopen.handle hsound hlive
  rw [heq, hvolume]

/-- The driver as a store of files. -/
def nyfsStore : FileStore (nyfsDrivers (D := D)) where
  IsOpen d h := ∃ k i, OpenFile d h k i
  content := nyfsContent
  isOpen_moved := by
    rintro d h offset ⟨k, i, hopen⟩
    exact ⟨k, i, hopen.vnode, hopen.handle, hopen.volume⟩
  content_moved _ _ _ := rfl
  length_lt := by
    rintro d h ⟨k, i, hopen⟩
    obtain ⟨L, nodes, hs, hi⟩ := hopen.volume
    rw [nyfsContent_eq hopen.handle hs hi]
    exact hs.content_lt hi
  read := by
    rintro d h n k op size ⟨vol, i, hopen⟩ - hop
    cases hop
    refine Eff.post_of_eq (hopen.nyfsRead size) ⟨fun g hg => ⟨hg, rfl⟩, ?_⟩
    intro bytes hbytes
    cases hbytes
    refine ⟨?_, List.take_prefix ..⟩
    rw [List.length_take]
    exact Nat.min_le_left ..
  write := by
    rintro d h n k op bytes ⟨vol, i, hopen⟩ - hop
    cases hop
    refine Eff.post_of_eq (hopen.nyfsWrite bytes) ⟨?_, ?_⟩
    · rintro g ⟨l, j, hg⟩
      exact ⟨l, j, hg.written hopen h.offset bytes⟩
    obtain ⟨L, nodes, hs, hi⟩ := hopen.volume
    obtain ⟨nodes', hs', htouches, -, hout⟩ := hs.fileWrite_step hi h.offset bytes
    have hi' := (live_congr htouches.inodeBit).mpr hi
    rw [hopen.nyfsContent_written hs' hi', nyfsContent_eq hopen.handle hs hi]
    refine ⟨fun o b => hout.keeps_before o b, ?_⟩
    intro count hcount
    rw [hcount] at hout
    have hbytes := hs'.valid.bytes_lt
    have hcap := (hs'.inventory.holds i hi').data.capacity_lt hs'.valid
    exact hout.stored (by omega)
  stat := by
    rintro d h n k op ⟨vol, i, hopen⟩ hruns hop
    cases hop
    obtain ⟨st, hrun, hsize⟩ := hopen.nyfsStat hruns.1
    refine Eff.post_of_eq hrun ⟨fun g hg => ⟨hg, rfl⟩, ?_⟩
    intro st' hst'
    cases hst'
    exact hsize

end Nyfs
end Nyxis
