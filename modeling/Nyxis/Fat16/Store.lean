import Nyxis.Fat16.File
import Nyxis.Vfs.Stores

/-!
# The FAT16 driver stores files

The driver reads files and refuses to write them.  It keeps the promises of a
{lit}`FileStore` for every handle of a file with clusters for its size on an accepted volume.

Main results:

- Definition {lit}`fat16Store`: the driver as a store of files.
-/

namespace Nyxis
namespace Fat16

open Vfs

variable {file : VnodeData} {cs : List Nat}

/-- A handle and its vnode name a file with clusters for its size on an accepted volume. -/
structure OpenFile (d : Drivers Fat16State) (h : Handle) (file : VnodeData) : Prop where
  vnode : ∃ n, h.vnode = some n ∧ (d.vnodes n).ops = some fat16FileOps ∧
    (d.vnodes n).fsPrivate.bind d.fs.vnodeData = some file
  handle : h.fsPrivate.bind d.fs.handles = some file
  regular : file.isDirectory = false
  loaded : ∃ diskno,
    (fat16LoadBootSector (d.fs.disks file.dev) diskno []).1 = .ok (d.fs.devices file.dev)
  clusters : ∃ cs, HasClusters (d.fs.disks file.dev) (d.fs.devices file.dev) file cs

/-- The bytes of the file of a handle: all of them are read. -/
def fat16Content (d : Drivers Fat16State) (h : Handle) : List UInt8 :=
  match h.fsPrivate.bind d.fs.handles with
  | none => []
  | some file =>
      match (fat16FileRead (d.fs.disks file.dev) (d.fs.devices file.dev) file 0 file.size []).1 with
      | .error _ => []
      | .ok bytes => bytes

variable {d : Drivers Fat16State} {h : Handle}

/-- The content that the driver reads is that of the clusters. -/
theorem OpenFile.content_eq (hopen : OpenFile d h file)
    (hfile : HasClusters (d.fs.disks file.dev) (d.fs.devices file.dev) file cs) :
    fat16Content d h = fileBytes (d.fs.disks file.dev) (d.fs.devices file.dev) file cs := by
  obtain ⟨diskno, hload⟩ := hopen.loaded
  have hread := (fat16FileRead_meets (accepted_of_load hload) file 0 file.size [] nofun).2 cs
    hopen.regular hfile
  rw [fat16Content, hopen.handle]
  dsimp only
  rw [hread, List.drop_zero]
  exact List.take_of_length_le (Nat.le_of_eq hfile.length_fileBytes)

theorem OpenFile.size_lt (hopen : OpenFile d h file) : file.size < 2 ^ 64 := by
  obtain ⟨diskno, hload⟩ := hopen.loaded
  obtain ⟨cs, hfile⟩ := hopen.clusters
  have hdev := accepted_of_load hload
  have hmax : fat16MaxClusters = 65524 := rfl
  have hclusters := hdev.clusters_le
  have hbytes : cs.length * (d.fs.devices file.dev).bytesPerCluster ≤ 65524 * 65536 :=
    Nat.mul_le_mul (Nat.le_trans hfile.length_le (by omega)) hdev.cluster_bounds.2
  have henough := hfile.enough
  omega

/-- Reading through the handle of an open file returns a piece of its content. -/
theorem OpenFile.fat16ReadHandle (hopen : OpenFile d h file) (size : Nat) :
    Fat16.fat16ReadHandle h size d = (.ok (((fat16Content d h).drop h.offset).take size), d) := by
  obtain ⟨diskno, hload⟩ := hopen.loaded
  obtain ⟨cs, hfile⟩ := hopen.clusters
  have hread := (fat16FileRead_meets (accepted_of_load hload) file h.offset size [] nofun).2 cs
    hopen.regular hfile
  rw [hopen.content_eq hfile]
  unfold Fat16.fat16ReadHandle
  rw [Eff.gets_bind_run, hopen.handle]
  dsimp only
  rw [Eff.gets_bind_run, Eff.gets_bind_run, onDisk, hread]

theorem OpenFile.fat16Stat (hopen : OpenFile d h file) {n : Nat} (hn : h.vnode = some n) :
    Fat16.fat16Stat n d = (.ok ⟨file.size, 1⟩, d) := by
  obtain ⟨m, hm, -, hdata⟩ := hopen.vnode
  rw [hn] at hm
  cases hm
  unfold Fat16.fat16Stat vnodeDataOf
  rw [Eff.gets_bind_run, hdata]
  dsimp only
  rw [hopen.regular]
  rfl

/-- The operations behind an open file are those of files. -/
theorem OpenFile.driver_eq (hopen : OpenFile d h file) {n k : Nat} (hruns : RunsOn d h n k) :
    fat16Drivers k = fat16Drivers fat16FileOps := by
  obtain ⟨m, hm, hops, -⟩ := hopen.vnode
  rw [hruns.1] at hm
  cases hm
  rw [hruns.2] at hops
  cases hops
  rfl

/-- The driver as a store of files. -/
def fat16Store : FileStore fat16Drivers where
  IsOpen d h := ∃ file, OpenFile d h file
  content := fat16Content
  isOpen_moved := by
    rintro d h offset ⟨file, hopen⟩
    exact ⟨file, hopen.vnode, hopen.handle, hopen.regular, hopen.loaded, hopen.clusters⟩
  content_moved _ _ _ := rfl
  length_lt := by
    rintro d h ⟨file, hopen⟩
    obtain ⟨cs, hfile⟩ := hopen.clusters
    rw [hopen.content_eq hfile, hfile.length_fileBytes]
    exact hopen.size_lt
  read := by
    rintro d h n k op size ⟨file, hopen⟩ hruns hop
    rw [hopen.driver_eq hruns] at hop
    cases hop
    refine Eff.post_of_eq (hopen.fat16ReadHandle size) ⟨fun g hg => ⟨hg, rfl⟩, ?_⟩
    intro bytes hbytes
    cases hbytes
    refine ⟨?_, List.take_prefix ..⟩
    rw [List.length_take]
    exact Nat.min_le_left ..
  write := by
    rintro d h n k op bytes ⟨file, hopen⟩ hruns hop
    rw [hopen.driver_eq hruns] at hop
    cases hop
    exact ⟨fun g hg => hg, fun _ _ _ hb => hb, nofun⟩
  stat := by
    rintro d h n k op ⟨file, hopen⟩ hruns hop
    rw [hopen.driver_eq hruns] at hop
    cases hop
    refine Eff.post_of_eq (hopen.fat16Stat hruns.1) ⟨fun g hg => ⟨hg, rfl⟩, ?_⟩
    intro st hst
    cases hst
    exact hopen.size_lt

end Fat16
end Nyxis
