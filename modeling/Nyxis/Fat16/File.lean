import Nyxis.Fat16.Lookup
import Nyxis.Vfs.Calls

/-!
# FAT16 files

Opening and reading the files of a FAT16 volume: the file operations of
{lit}`drivers/filesystem/fat16/fat16.c` and what {lit}`vfs_read` makes of them.  A read finds
the cluster of every piece anew from the first cluster of the file, and the offset of a
handle is advanced by {lit}`vfs_read` alone.

Main results:

- Theorem {lit}`fat16FileRead_meets`: a read stays inside the volume and returns a piece of
  the content of the file.
- Theorem {lit}`fat16_accesses_inside`: so do all accesses of loading, lookups and reads.
- Theorem {lit}`fat16_read_law`: what reads and sequences of reads return.
-/

namespace Nyxis
namespace Fat16

open Bytes Vfs

/-! ## Reading -/

/-- {lit}`fat16_vnode_data_t`: a file or directory of a mounted device. -/
structure VnodeData where
  dev : Nat
  isDirectory : Bool
  firstCluster : Nat
  size : Nat
  inodeId : Nat
deriving DecidableEq

/-- The loop of {lit}`fat16_file_read`. -/
def readLoop (disk : Ramdisk) (dev : Device) (firstCluster : Nat) :
    (fuel offset left : Nat) → FatM (List UInt8)
  | _, _, 0 => pure []
  | 0, _, _ + 1 => Eff.fail .hang
  | fuel + 1, offset, left + 1 => do
      let clusterSize := dev.bytesPerCluster
      let clusterIndex := offset / clusterSize
      let clusterOffset ← word 32 (offset % clusterSize)
      if clusterIndex ≥ dev.totalClusters then
        failWith .NfileCorrupted
      else
        let index ← word 32 clusterIndex
        let cluster ← fat16GetNthCluster disk dev firstCluster index
        let place ← wordSub 32 cluster 2
        let clusterByteOffset ← word 64 (dev.firstDataSector * fat16SectorSize +
          place * clusterSize + clusterOffset)
        let room ← wordSub 32 clusterSize clusterOffset
        let chunk := if room > left + 1 then left + 1 else room
        let bytes ← fat16ReadRaw disk (.data cluster) clusterByteOffset chunk
        let offset ← word 64 (offset + chunk)
        let rest ← readLoop disk dev firstCluster fuel offset (left + 1 - chunk)
        pure (bytes ++ rest)

/-- {lit}`fat16_file_read`, of an open file at the offset of its handle. -/
def fat16FileRead (disk : Ramdisk) (dev : Device) (file : VnodeData) (offset size : Nat) :
    FatM (List UInt8) :=
  if file.isDirectory then
    failWith .NinvalidArg
  else if offset ≥ file.size then
    pure []
  else
    let remaining := file.size - offset
    let toRead := if size < remaining then size else remaining
    readLoop disk dev file.firstCluster toRead offset toRead

/-! ## The driver -/

/-- The mounted devices with their disks, {lit}`g_vnode_data` and
{lit}`g_handle_slots`. -/
structure Fat16State where
  disks : Nat → Ramdisk
  devices : Nat → Device
  vnodeData : Nat → Option VnodeData
  handles : Nat → Option VnodeData

def fat16MaxVnodeData : Nat := 128
def fat16MaxHandles : Nat := 64

abbrev FatDriverM := DriverM Fat16State

/-- Work on the disk of a device. -/
def onDisk {α : Type} (c : FatM α) : FatDriverM α :=
  fun d => ((c []).1, d)

/-- The data of a vnode. -/
def vnodeDataOf (vnode : Nat) : FatDriverM (Option VnodeData) :=
  Eff.gets (fun d => (d.vnodes vnode).fsPrivate.bind d.fs.vnodeData)

/-- {lit}`g_fat16_dir_ops` and {lit}`g_fat16_file_ops`, by their place among the drivers. -/
def fat16DirOps : Nat := 0
def fat16FileOps : Nat := 1

/-- {lit}`fat16_fill_vnode`. -/
def fat16FillVnode (node : Nat) (data : VnodeData) : FatDriverM Unit := do
  let slots ← Eff.gets (fun d => d.fs.vnodeData)
  match firstFree (fun i => (slots i).isSome) fat16MaxVnodeData with
  | none => failWith .NoutOfMemory
  | some slot =>
      Eff.modify (fun d => { d with
        fs := { d.fs with vnodeData := Function.update d.fs.vnodeData slot (some data) } })
      vfsInitVnode node data.inodeId (if data.isDirectory then 2 else 1)
        (if data.isDirectory then fat16DirOps else fat16FileOps) (some slot)

/-- {lit}`fat16_lookup`.  A directory whose first cluster is zero is the root area. -/
def fat16Lookup (dir : Nat) (name : List UInt8) : FatDriverM (Option Nat) := do
  match ← vnodeDataOf dir with
  | none => failWith .NinvalidArg
  | some parent =>
      if parent.isDirectory = false then
        failWith .NinvalidArg
      else
        let disk ← Eff.gets (fun d => d.fs.disks parent.dev)
        let dev ← Eff.gets (fun d => d.fs.devices parent.dev)
        let (entry, inode) ← onDisk (fat16FindEntryInDirectory disk dev parent.firstCluster
          (parent.firstCluster == 0) name)
        match ← vfsAllocVnode with
        | none => failWith .NoutOfMemory
        | some vnode =>
            let filled ← Eff.attempt (fat16FillVnode vnode {
              dev := parent.dev
              isDirectory := entry.attr &&& fat16AttrDirectory != 0
              firstCluster := entry.firstClusterLow
              size := entry.fileSize
              inodeId := inode })
            match filled with
            | .error e =>
                vfsFreeVnode (some vnode)
                Eff.fail e
            | .ok () => pure (some vnode)

/-- {lit}`fat16_stat`. -/
def fat16Stat (vnode : Nat) : FatDriverM VfsStat := do
  match ← vnodeDataOf vnode with
  | none => failWith .NinvalidArg
  | some data =>
      pure {
        size := if data.isDirectory then 0 else data.size
        type := if data.isDirectory then 2 else 1 }

/-- {lit}`fat16_file_open`: the data of the file is copied into a slot of the handle. -/
def fat16FileOpen (vnode _flags : Nat) (handle : Handle) : FatDriverM Handle := do
  match ← vnodeDataOf vnode with
  | none => failWith .NinvalidArg
  | some data =>
      if data.isDirectory then
        failWith .NinvalidArg
      else
        let slots ← Eff.gets (fun d => d.fs.handles)
        match firstFree (fun i => (slots i).isSome) fat16MaxHandles with
        | none => failWith .NoutOfMemory
        | some slot =>
            Eff.modify (fun d => { d with
              fs := { d.fs with handles := Function.update d.fs.handles slot (some data) } })
            pure { handle with fsPrivate := some slot }

/-- {lit}`fat16_file_read`. -/
def fat16ReadHandle (handle : Handle) (size : Nat) : FatDriverM (List UInt8) := do
  let file ← Eff.gets (fun d => handle.fsPrivate.bind d.fs.handles)
  match file with
  | none => failWith .NinvalidArg
  | some file =>
      let disk ← Eff.gets (fun d => d.fs.disks file.dev)
      let dev ← Eff.gets (fun d => d.fs.devices file.dev)
      onDisk (fat16FileRead disk dev file handle.offset size)

/-- {lit}`fat16_file_close`. -/
def fat16FileClose (handle : Handle) : FatDriverM Handle :=
  match handle.fsPrivate with
  | none => pure handle
  | some slot => do
      Eff.modify (fun d => { d with
        fs := { d.fs with handles := Function.update d.fs.handles slot none } })
      pure { handle with fsPrivate := none }

/-- {lit}`fat16_register`: the operations on directories and on files. -/
def fat16Drivers : Nat → VfsOps Fat16State
  | 0 => {
      lookup := some fat16Lookup
      openFile := some (fun _ _ _ => failWith .Nunsupported)
      read := none
      write := none
      close := none
      stat := some fat16Stat
      create := none
      mkdir := none
      unlink := none
      readdir := none
      rename := none }
  | _ => {
      lookup := none
      openFile := some fat16FileOpen
      read := some fat16ReadHandle
      write := some (fun _ _ => failWith .NreadOnly)
      close := some fat16FileClose
      stat := some fat16Stat
      create := none
      mkdir := none
      unlink := none
      readdir := none
      rename := none }

/-! ## The content of a file -/

variable {dev : Device} {disk : Ramdisk} {file : VnodeData} {cs : List Nat}

/-- The bytes of a cluster. -/
def clusterBytes (disk : Ramdisk) (dev : Device) (cluster : Nat) : List UInt8 :=
  bytesAt disk.bytes (dev.clusterStart cluster) dev.bytesPerCluster

/-- The first bytes of the clusters of a file, as many as the file has. -/
def fileBytes (disk : Ramdisk) (dev : Device) (file : VnodeData) (cs : List Nat) : List UInt8 :=
  (cs.flatMap (clusterBytes disk dev)).take file.size

/-- The clusters of a file: a chain from its first cluster on that is no longer than the
table has clusters, with room for the size of the file, whose bytes are on the disk. -/
structure HasClusters (disk : Ramdisk) (dev : Device) (file : VnodeData) (cs : List Nat) : Prop where
  head : ∀ c, cs.head? = some c → c = file.firstCluster ∧ dev.Valid c
  linked : cs.IsChain (Links disk dev)
  length_le : cs.length ≤ dev.totalClusters
  enough : file.size ≤ cs.length * dev.bytesPerCluster
  present : ∀ i c, i < file.size → cs[i / dev.bytesPerCluster]? = some c →
    dev.clusterStart c + i % dev.bytesPerCluster < disk.size

theorem HasClusters.chain (h : HasClusters disk dev file cs) (hne : cs ≠ []) :
    ClusterChain disk dev file.firstCluster cs := by
  obtain ⟨c, hc⟩ : ∃ c, cs.head? = some c := ⟨_, List.head?_eq_some_head hne⟩
  obtain ⟨rfl, hvalid⟩ := h.head c hc
  exact ⟨hc, hvalid, h.linked, h.length_le⟩

theorem Accepted.cluster_bounds (hdev : Accepted dev) :
    0 < dev.bytesPerCluster ∧ dev.bytesPerCluster ≤ 65536 := by
  have hsize : fat16SectorSize = 512 := rfl
  have hpos := hdev.spc_pos
  have hle := hdev.spc_le
  rw [hdev.cluster_bytes, hsize]
  omega

theorem Accepted.clusterStart_eq (hdev : Accepted dev) (cluster : Nat) :
    dev.firstDataSector * fat16SectorSize + (cluster - 2) * dev.bytesPerCluster =
      dev.clusterStart cluster := by
  rw [hdev.cluster_bytes, Device.clusterStart, Nat.add_mul, Nat.mul_comm fat16SectorSize,
    Nat.mul_assoc]

/-- A valid cluster ends inside the volume. -/
theorem Accepted.clusterStart_le (hdev : Accepted dev) {cluster : Nat} (hvalid : dev.Valid cluster) :
    dev.clusterStart cluster + dev.bytesPerCluster ≤ dev.totalSectors * fat16SectorSize := by
  have hsize : fat16SectorSize = 512 := rfl
  have hpos := hdev.spc_pos
  have hlast := hdev.clusterSector_lt hvalid (Nat.sub_lt hpos Nat.one_pos)
  rw [Device.clusterSector] at hlast
  rw [hdev.cluster_bytes, Device.clusterStart, hsize]
  omega

/-- The cluster at the index of a byte of the file. -/
theorem HasClusters.cluster_at (h : HasClusters disk dev file cs) {i : Nat} (hi : i < file.size) :
    ∃ c, cs[i / dev.bytesPerCluster]? = some c := by
  refine ⟨_, List.getElem?_eq_getElem ?_⟩
  refine Nat.div_lt_of_lt_mul ?_
  rw [Nat.mul_comm]
  exact Nat.lt_of_lt_of_le hi h.enough

/-- A piece of the file that lies in one cluster is read from that cluster. -/
theorem HasClusters.readOf_piece (h : HasClusters disk dev file cs) {offset m c : Nat}
    (hm : m ≠ 0) (hfile : offset + m ≤ file.size) (hc : cs[offset / dev.bytesPerCluster]? = some c)
    (hroom : offset % dev.bytesPerCluster + m ≤ dev.bytesPerCluster) :
    readOf disk (dev.clusterStart c + offset % dev.bytesPerCluster) m =
      .ok (((fileBytes disk dev file cs).drop offset).take m) := by
  -- the last byte of the piece lies in the same cluster, and on the disk
  have hlast : (offset + (m - 1)) / dev.bytesPerCluster = offset / dev.bytesPerCluster ∧
      (offset + (m - 1)) % dev.bytesPerCluster = offset % dev.bytesPerCluster + (m - 1) := by
    have hsplit := Nat.mod_add_div offset dev.bytesPerCluster
    exact (Nat.div_mod_unique (by omega)).mpr ⟨by omega, by omega⟩
  have hdisk := h.present (offset + (m - 1)) c (by omega) (by rw [hlast.1]; exact hc)
  rw [hlast.2] at hdisk
  have hread : readOf disk (dev.clusterStart c + offset % dev.bytesPerCluster) m =
      .ok (bytesAt disk.bytes (dev.clusterStart c + offset % dev.bytesPerCluster) m) := by
    have hwithin : rangeWithin (dev.clusterStart c + offset % dev.bytesPerCluster) m disk.size =
        true := by
      rw [rangeWithin, if_neg (by omega)]
      exact decide_eq_true (by omega)
    rw [readOf, ramdiskRead, if_neg hm, if_neg (by rw [hwithin]; decide)]
  have hpiece : ((cs.flatMap (clusterBytes disk dev)).drop offset).take m =
      bytesAt disk.bytes (dev.clusterStart c + offset % dev.bytesPerCluster) m := by
    have hsplit : offset / dev.bytesPerCluster * dev.bytesPerCluster +
        offset % dev.bytesPerCluster = offset := Nat.div_add_mod' _ _
    have hblock : ((cs.flatMap (clusterBytes disk dev)).drop (offset / dev.bytesPerCluster *
        dev.bytesPerCluster + offset % dev.bytesPerCluster)).take m =
        ((clusterBytes disk dev c).drop (offset % dev.bytesPerCluster)).take m :=
      take_drop_flatMap (fun b _ => length_bytesAt _ _ _) hc hroom
    rw [hsplit] at hblock
    rw [hblock, clusterBytes, drop_bytesAt _ _ (by omega), take_bytesAt _ _ (by omega)]
  rw [hread, ← hpiece, fileBytes, List.drop_take, List.take_take, Nat.min_eq_left (by omega)]

/-! ## Reads -/

/-- The loop of a read stays inside the volume, and reads a piece of the content. -/
theorem readLoop_meets (hdev : Accepted dev) (file : VnodeData) {fuel offset left : Nat}
    (hfuel : left ≤ fuel) :
    Meets dev (readLoop disk dev file.firstCluster fuel offset left) (fun r =>
      ∀ cs, HasClusters disk dev file cs → offset + left ≤ file.size →
        r = .ok (((fileBytes disk dev file cs).drop offset).take left)) := by
  induction fuel generalizing offset left with
  | zero =>
      obtain rfl : left = 0 := Nat.le_zero.mp hfuel
      exact Meets.pure (fun _ _ _ => by rw [List.take_zero])
  | succ fuel ih =>
      cases left with
      | zero => exact Meets.pure (fun _ _ _ => by rw [List.take_zero])
      | succ left =>
          obtain ⟨hpos, hwide⟩ := hdev.cluster_bounds
          have hmax : fat16MaxClusters = 65524 := rfl
          have hclusters := hdev.clusters_le
          have hmod : offset % dev.bytesPerCluster < dev.bytesPerCluster := Nat.mod_lt _ hpos
          unfold readLoop
          refine Meets.word (by omega) ?_
          split
          next hindex =>
            refine Meets.fail (fun cs hfile hle => ?_)
            obtain ⟨c, hc⟩ := hfile.cluster_at (i := offset) (by omega)
            have hlt := (List.getElem?_eq_some_iff.mp hc).1
            have hlen := hfile.length_le
            omega
          next hindex =>
          refine Meets.word (by omega) (Meets.bind (fat16GetNthCluster_meets hdev _ _) ?_ ?_)
          · rintro e ⟨_, hnth⟩ cs hfile hle
            obtain ⟨c, hc⟩ := hfile.cluster_at (i := offset) (by omega)
            cases hnth cs c (hfile.chain (by rintro rfl; simp at hc)) hc
          rintro cluster ⟨hvalid, hnth⟩
          have hvalid := hvalid cluster rfl
          have hlast := hvalid.2
          have hstart := hdev.clusterStart_eq cluster
          have hend := hdev.clusterStart_le hvalid
          have htotal := hdev.total_lt
          have hsize : fat16SectorSize = 512 := rfl
          rw [hsize] at hend
          -- the chunk is not empty, fits the rest of the cluster and is asked for
          obtain ⟨chunk, hchunk⟩ : ∃ chunk, chunk =
              if dev.bytesPerCluster - offset % dev.bytesPerCluster > left + 1 then left + 1
              else dev.bytesPerCluster - offset % dev.bytesPerCluster := ⟨_, rfl⟩
          have hbounds : chunk ≠ 0 ∧ chunk ≤ left + 1 ∧
              offset % dev.bytesPerCluster + chunk ≤ dev.bytesPerCluster := by
            rw [hchunk]
            split <;> omega
          obtain ⟨hne, hleft, hroom⟩ := hbounds
          have hoffset : offset < 65524 * 65536 := by
            have hlt : offset < dev.totalClusters * dev.bytesPerCluster :=
              (Nat.div_lt_iff_lt_mul hpos).mp (Nat.not_le.mp hindex)
            exact Nat.lt_of_lt_of_le hlt (Nat.mul_le_mul (by omega) hwide)
          have hcluster : ∀ cs, HasClusters disk dev file cs → offset + (left + 1) ≤ file.size →
              readOf disk (dev.clusterStart cluster + offset % dev.bytesPerCluster) chunk =
                .ok (((fileBytes disk dev file cs).drop offset).take chunk) := by
            intro cs hfile hle
            obtain ⟨c, hc⟩ := hfile.cluster_at (i := offset) (by omega)
            cases hnth cs c (hfile.chain (by rintro rfl; simp at hc)) hc
            exact hfile.readOf_piece hne (by omega) hc hroom
          refine Meets.wordSub (by omega) hvalid.1 (Meets.word ?_ (Meets.wordSub (by omega)
            (Nat.le_of_lt hmod) ?_))
          · rw [hstart]
            omega
          rw [hstart]
          simp only [← hchunk]
          refine Meets.bind (Meets.readRaw hne ⟨⟨hvalid, by omega, by omega⟩, ?_⟩) ?_ ?_
          · rw [hsize]
            omega
          · intro e he cs hfile hle
            rw [hcluster cs hfile hle] at he
            cases he
          intro bytes hbytes
          refine Meets.word (by omega) (Meets.bind (ih (by omega)) ?_ ?_)
          · intro e hrest cs hfile hle
            cases hrest cs hfile (by omega)
          · intro rest hrest
            refine Meets.pure (fun cs hfile hle => ?_)
            have hpiece := Except.ok.inj (hbytes.trans (hcluster cs hfile hle))
            have hmore := Except.ok.inj (hrest cs hfile (by omega))
            rw [hpiece, hmore, ← List.drop_drop, ← List.take_add]
            congr 2
            omega

/-- A read stays inside the volume, and returns the piece of the content that is asked
for. -/
theorem fat16FileRead_meets (hdev : Accepted dev) (file : VnodeData) (offset size : Nat) :
    Meets dev (fat16FileRead disk dev file offset size) (fun r =>
      ∀ cs, file.isDirectory = false → HasClusters disk dev file cs →
        r = .ok (((fileBytes disk dev file cs).drop offset).take size)) := by
  unfold fat16FileRead
  split
  next hdir =>
    refine Meets.fail (fun cs hfile => ?_)
    rw [hfile] at hdir
    cases hdir
  split
  next hend =>
    refine Meets.pure (fun cs _ _ => ?_)
    have hlen : (fileBytes disk dev file cs).length ≤ offset :=
      Nat.le_trans (List.length_take_le _ _) hend
    rw [List.drop_of_length_le hlen, List.take_nil]
  next hend =>
    refine (readLoop_meets hdev file (Nat.le_refl _)).mono (fun r hr cs _ hfile => ?_)
    split at hr
    · exact hr cs hfile (by omega)
    next hsize =>
      rw [hr cs hfile (by omega)]
      have hlen : ((fileBytes disk dev file cs).drop offset).length ≤ file.size - offset := by
        rw [List.length_drop]
        exact Nat.sub_le_sub_right (List.length_take_le _ _) _
      rw [List.take_of_length_le hlen, List.take_of_length_le (by omega)]

/-- The accesses and computations of the driver: on every accepted volume, whatever its
entries and chains are, loading reads the boot sector, every access of a lookup and of a
read lies inside the region it is meant for and inside the volume, and no computation
wraps. -/
theorem fat16_accesses_inside (disk : Ramdisk) (diskno : Nat) (dev : Device)
    (hload : (fat16LoadBootSector disk diskno []).1 = .ok dev) :
    LoadSafe dev (fat16LoadBootSector disk diskno []).2 ∧
    (∀ start rootDirectory name,
      Safe dev (fat16FindEntryInDirectory disk dev start rootDirectory name []).2) ∧
    ∀ file offset size, Safe dev (fat16FileRead disk dev file offset size []).2 := by
  obtain ⟨hdev, hsafe⟩ := fat16LoadBootSector_accepts disk diskno dev hload
  refine ⟨hsafe, fun start rootDirectory name => ?_, fun file offset size => ?_⟩
  · exact (fat16FindEntryInDirectory_meets hdev start rootDirectory name [] nofun).1
  · exact (fat16FileRead_meets hdev file offset size [] nofun).1

theorem fat16_accesses_inside_small :
    LoadSafe smallDevice (fat16LoadBootSector smallDisk 0 []).2 ∧
    (fat16FindEntryInDirectory smallDisk smallDevice 0 true helloTxt []).2 ≠ [] ∧
    Safe smallDevice (fat16FindEntryInDirectory smallDisk smallDevice 0 true helloTxt []).2 :=
  have h := fat16_accesses_inside smallDisk 0 smallDevice smallDisk_loads
  ⟨h.1, by decide +kernel, h.2.1 0 true helloTxt⟩

/-! ## Successive reads -/

/-- A handle of a file that {lit}`vfs_open` has opened. -/
structure OpenOn (v : VfsState Fat16State) (handle : Handle) (file : VnodeData) : Prop where
  node : ∃ node, handle.vnode = some node ∧ (v.drv.vnodes node).ops = some fat16FileOps
  slot : handle.fsPrivate.bind v.drv.fs.handles = some file

/-- The disk and the device of a file are mounted. -/
structure MountedOn (v : VfsState Fat16State) (file : VnodeData) (disk : Ramdisk) (dev : Device) :
    Prop where
  ramdisk : v.drv.fs.disks file.dev = disk
  device : v.drv.fs.devices file.dev = dev
  loaded : ∃ diskno, (fat16LoadBootSector disk diskno []).1 = .ok dev

/-- Opening the vnode of a file gives a handle of the file at its start. -/
theorem fat16FileOpen_openOn {v : VfsState Fat16State} {node flags : Nat}
    (hops : (v.drv.vnodes node).ops = some fat16FileOps)
    (hdata : (v.drv.vnodes node).fsPrivate.bind v.drv.fs.vnodeData = some file)
    {handle : Handle} {drv : Drivers Fat16State}
    (hrun : fat16FileOpen node flags
      { vnode := some node, offset := 0, flags := flags, fsPrivate := none } v.drv =
        (.ok handle, drv)) :
    OpenOn { v with drv := drv } handle file ∧ handle.offset = 0 ∧ file.isDirectory = false := by
  unfold fat16FileOpen vnodeDataOf at hrun
  rw [Eff.gets_bind_run, hdata] at hrun
  dsimp only at hrun
  split at hrun
  · cases hrun
  next hdir =>
    rw [Eff.gets_bind_run] at hrun
    cases hslot : firstFree (fun i => (v.drv.fs.handles i).isSome) fat16MaxHandles with
    | none =>
        simp only [hslot] at hrun
        cases hrun
    | some slot =>
        simp only [hslot] at hrun
        rw [Eff.modify_bind_run] at hrun
        cases hrun
        refine ⟨⟨⟨node, rfl, hops⟩, ?_⟩, rfl, by simpa using hdir⟩
        simp

/-- A handle that is only moved stays a handle of its file. -/
theorem OpenOn.moved {v : VfsState Fat16State} {handle : Handle} (h : OpenOn v handle file)
    (offset : Nat) : OpenOn v { handle with offset := offset } file :=
  ⟨h.node, h.slot⟩

/-- One {lit}`vfs_read`: the piece of the content at the offset of the handle, which is
moved behind it. -/
theorem vfsRead_run {v : VfsState Fat16State} {handle : Handle} (hopen : OpenOn v handle file)
    (hmount : MountedOn v file disk dev) (hdir : file.isDirectory = false)
    (hfile : HasClusters disk dev file cs) (size : Nat) :
    vfsRead fat16Drivers handle size v =
      (.ok (((fileBytes disk dev file cs).drop handle.offset).take size,
        { handle with offset := (handle.offset +
          (((fileBytes disk dev file cs).drop handle.offset).take size).length) % 2 ^ 64 }), v) := by
  obtain ⟨node, hnode, hops⟩ := hopen.node
  obtain ⟨diskno, hload⟩ := hmount.loaded
  have hread := (fat16FileRead_meets (accepted_of_load hload) file handle.offset size [] nofun).2 cs
    hdir hfile
  have hdriver : fat16ReadHandle handle size v.drv =
      (.ok (((fileBytes disk dev file cs).drop handle.offset).take size), v.drv) := by
    unfold fat16ReadHandle
    rw [Eff.gets_bind_run, hopen.slot]
    dsimp only
    rw [Eff.gets_bind_run, Eff.gets_bind_run, hmount.ramdisk, hmount.device, onDisk, hread]
  have hcall : callDriver (fat16ReadHandle handle size) v =
      (.ok (((fileBytes disk dev file cs).drop handle.offset).take size), v) := by
    rw [callDriver, hdriver]
  have hof : opsOf fat16Drivers v handle.vnode = some (node, fat16Drivers fat16FileOps) := by
    rw [hnode, opsOf, hops]
    rfl
  unfold vfsRead
  rw [Eff.gets_bind_run, hof]
  exact Eff.bind_ok hcall

/-- Successive reads through a handle: the bytes read, one behind the other, and the
handle in the end. -/
def readAll (drivers : Nat → VfsOps Fat16State) (handle : Handle) :
    List Nat → VfsM Fat16State (List UInt8 × Handle)
  | [] => pure ([], handle)
  | size :: sizes => do
      let (bytes, handle) ← vfsRead drivers handle size
      let (rest, handle) ← readAll drivers handle sizes
      pure (bytes ++ rest, handle)

theorem HasClusters.length_fileBytes (h : HasClusters disk dev file cs) :
    (fileBytes disk dev file cs).length = file.size := by
  have hlen : (cs.flatMap (clusterBytes disk dev)).length = cs.length * dev.bytesPerCluster := by
    rw [List.length_flatMap]
    simp [clusterBytes]
  rw [fileBytes, List.length_take, hlen]
  exact Nat.min_eq_left h.enough

/-- Behind the bytes that were read, the rest of the content begins. -/
theorem drop_length_take_drop (bytes : List UInt8) (offset size : Nat) :
    bytes.drop (offset + ((bytes.drop offset).take size).length) =
      (bytes.drop offset).drop size := by
  rw [List.drop_drop, List.length_take, List.length_drop]
  by_cases hsize : size ≤ bytes.length - offset
  · rw [Nat.min_eq_left hsize]
  · rw [List.drop_of_length_le (by omega), List.drop_of_length_le (by omega)]

/-- Successive reads return the content from the offset of the handle on. -/
theorem readAll_run {v : VfsState Fat16State} (hmount : MountedOn v file disk dev)
    (hdir : file.isDirectory = false) (hfile : HasClusters disk dev file cs) (sizes : List Nat)
    {handle : Handle} (hopen : OpenOn v handle file) (hoffset : handle.offset < 2 ^ 64) :
    ∃ handle', readAll fat16Drivers handle sizes v =
      (.ok (((fileBytes disk dev file cs).drop handle.offset).take sizes.sum, handle'), v) := by
  induction sizes generalizing handle with
  | nil => exact ⟨handle, rfl⟩
  | cons size sizes ih =>
      have hlen := hfile.length_fileBytes
      have hread := vfsRead_run hopen hmount hdir hfile size
      obtain ⟨offset, hadvanced⟩ : ∃ offset, offset = handle.offset +
          (((fileBytes disk dev file cs).drop handle.offset).take size).length := ⟨_, rfl⟩
      -- the handle is moved inside the file, so its offset does not wrap
      have hsmall : offset < 2 ^ 64 := by
        obtain ⟨diskno, hload⟩ := hmount.loaded
        have hdev := accepted_of_load hload
        have hmax : fat16MaxClusters = 65524 := rfl
        have hclusters := hdev.clusters_le
        have hbytes : cs.length * dev.bytesPerCluster ≤ 65524 * 65536 :=
          Nat.mul_le_mul (Nat.le_trans hfile.length_le (by omega)) hdev.cluster_bounds.2
        have henough := hfile.enough
        rw [hadvanced, List.length_take, List.length_drop, hlen]
        omega
      rw [← hadvanced, Nat.mod_eq_of_lt hsmall] at hread
      obtain ⟨handle', hrest⟩ := ih (hopen.moved offset) hsmall
      refine ⟨handle', ?_⟩
      unfold readAll
      rw [Eff.bind_ok hread]
      dsimp only
      rw [Eff.bind_ok hrest, List.sum_cons, List.take_add, ← drop_length_take_drop, ← hadvanced]
      rfl

/-- The read law: on every accepted volume, for every file with clusters for its size, a
read returns the bytes of the content from the offset on, as many as are asked for and are
there, and successive reads of any sizes through an open handle return the content in
order, all of it if they ask for enough. -/
theorem fat16_read_law (disk : Ramdisk) (diskno : Nat) (dev : Device)
    (hload : (fat16LoadBootSector disk diskno []).1 = .ok dev) (file : VnodeData) (cs : List Nat)
    (hdir : file.isDirectory = false) (hfile : HasClusters disk dev file cs) :
    (fileBytes disk dev file cs).length = file.size ∧
    (∀ offset size, (fat16FileRead disk dev file offset size []).1 =
      .ok (((fileBytes disk dev file cs).drop offset).take size)) ∧
    ∀ (v : VfsState Fat16State) (handle : Handle), MountedOn v file disk dev →
      OpenOn v handle file → handle.offset = 0 → ∀ sizes : List Nat,
        ∃ bytes handle', readAll fat16Drivers handle sizes v = (.ok (bytes, handle'), v) ∧
          bytes = (fileBytes disk dev file cs).take sizes.sum ∧
          (file.size ≤ sizes.sum → bytes = fileBytes disk dev file cs) := by
  have hdev := accepted_of_load hload
  have hlen := hfile.length_fileBytes
  refine ⟨hlen, fun offset size => ?_, fun v handle hmount hopen hstart sizes => ?_⟩
  · exact (fat16FileRead_meets hdev file offset size [] nofun).2 cs hdir hfile
  · obtain ⟨handle', hrun⟩ := readAll_run hmount hdir hfile sizes hopen (by rw [hstart]; decide)
    rw [hstart, List.drop_zero] at hrun
    exact ⟨_, handle', hrun, rfl, fun hall => List.take_of_length_le (by rw [hlen]; exact hall)⟩

/-- The file of the small volume. -/
def helloFile : VnodeData where
  dev := 0
  isDirectory := false
  firstCluster := 4
  size := 600
  inodeId := 0

/-- The small volume is mounted, its file has vnode 0 and is open in slot 0. -/
def smallFat16 : VfsState Fat16State where
  dentries := fun _ => Dentry.zero
  namespaces := fun _ => Namespace.zero
  defaultNamespace := none
  drv := {
    vnodes := fun _ => { Vnode.zero with ops := some fat16FileOps, fsPrivate := some 0 }
    fs := {
      disks := fun _ => smallDisk
      devices := fun _ => smallDevice
      vnodeData := fun _ => some helloFile
      handles := fun _ => some helloFile } }

theorem helloFile_hasClusters : HasClusters smallDisk smallDevice helloFile [4, 7] where
  head := by decide
  linked := by
    have hlink : fatEntry smallDisk smallDevice 4 = .ok 7 := by decide +kernel
    exact List.isChain_cons_cons.mpr ⟨⟨hlink, by decide⟩, List.IsChain.singleton 7⟩
  length_le := by decide
  enough := by decide
  present := by
    intro i c hi hc
    have hbytes : smallDevice.bytesPerCluster = 512 := rfl
    have hdisk : smallDisk.size = 4103 * 512 := rfl
    have hc : c = 4 ∨ c = 7 := by
      have hmem := List.mem_of_getElem? hc
      simpa using hmem
    have hstart : smallDevice.clusterStart c ≤ 23 * 512 := by
      rcases hc with rfl | rfl <;> decide
    have hmod : i % smallDevice.bytesPerCluster < 512 := Nat.mod_lt _ (by decide)
    omega

theorem fat16_read_law_small :
    (fat16FileRead smallDisk smallDevice helloFile 510 5 []).1 =
      .ok (((fileBytes smallDisk smallDevice helloFile [4, 7]).drop 510).take 5) ∧
    ∃ bytes handle', readAll fat16Drivers
        { vnode := some 0, offset := 0, flags := 0, fsPrivate := some 0 } [5, 500, 200]
        smallFat16 = (.ok (bytes, handle'), smallFat16) ∧
      bytes = (fileBytes smallDisk smallDevice helloFile [4, 7]).take 705 ∧
      (helloFile.size ≤ 705 → bytes = fileBytes smallDisk smallDevice helloFile [4, 7]) :=
  have h := fat16_read_law smallDisk 0 smallDevice smallDisk_loads helloFile [4, 7] rfl
    helloFile_hasClusters
  ⟨h.2.1 510 5, h.2.2 smallFat16 _ ⟨rfl, rfl, 0, smallDisk_loads⟩ ⟨⟨0, rfl, rfl⟩, rfl⟩ rfl
    [5, 500, 200]⟩

end Fat16
end Nyxis
