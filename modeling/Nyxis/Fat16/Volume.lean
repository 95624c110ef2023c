import Nyxis.Status
import Nyxis.Lib.Bytes
import Nyxis.Lib.ByteMap

/-!
# FAT16 volumes

The part of {lit}`drivers/filesystem/fat16/fat16.c` that knows where things are on a
disk: reading raw bytes and sectors, checking the boot sector, and following the
cluster chains of the file allocation table.  The disk is the RAM disk that the kernel
mounts.

All geometry comes from the boot sector and all links from the table, and neither is
trusted.  So the computations record what they do: every access to the disk with the
region it is meant for, and every computation of limited width with its exact result.

Main results:

- Definition {lit}`Meets`: a computation whose recorded accesses and computations are
  in order and whose outcome satisfies a property.
- Theorem {lit}`fat16LoadBootSector_accepts`: what the checks of the boot sector leave.
- Theorem {lit}`fat16GetNthCluster_meets`: the chain of a file is followed inside the
  table and ends in a cluster of the data area.
-/

namespace Nyxis
namespace Fat16

open Bytes

/-! ## The disk and the record -/

/-- A RAM disk. -/
structure Ramdisk where
  bytes : Nat → UInt8
  size : Nat

/-- The region of the volume that an access is meant for. -/
inductive Region
  | boot
  | fat
  | root
  | data (cluster : Nat)
deriving DecidableEq

/-- What is recorded: accesses to the disk, and the exact results of computations whose
result is kept in a word of the given width. -/
inductive Event
  | access (region : Region) (offset size : Nat)
  | word (width : Nat) (exact : Int)
deriving DecidableEq

abbrev FatM := Eff Stop (List Event)

def record (e : Event) : FatM Unit :=
  Eff.modify (fun log => e :: log)

/-- A result kept in a word. -/
def word (width exact : Nat) : FatM Nat := do
  record (.word width exact)
  pure (exact % 2 ^ width)

/-- A difference kept in a word. -/
def wordSub (width a b : Nat) : FatM Nat := do
  record (.word width ((a : Int) - b))
  pure ((a + 2 ^ width - b) % 2 ^ width)

/-- {lit}`range_within`. -/
def rangeWithin (start size limit : Nat) : Bool :=
  if start > limit then false else decide (size ≤ limit - start)

/-- {lit}`ramdisk_read`. -/
def ramdiskRead (disk : Ramdisk) (offset size : Nat) : Except Nstatus (List UInt8) :=
  if size = 0 then .error .NinvalidArg
  else if rangeWithin offset size disk.size = false then .error .Noverflow
  else .ok (bytesAt disk.bytes offset size)

/-- {lit}`fat16_read_raw`. -/
def fat16ReadRaw (disk : Ramdisk) (region : Region) (offset size : Nat) : FatM (List UInt8) := do
  if size = 0 then
    failWith .NinvalidArg
  else
    record (.access region offset size)
    match ramdiskRead disk offset size with
    | .error e => failWith e
    | .ok bytes => pure bytes

/-! ## The boot sector -/

def fat16EntrySize : Nat := 32
def fat16NameLength : Nat := 11
def fat16SectorSize : Nat := 512
def fat16ClusterBad : Nat := 0xFFF7
def fat16ClusterEoc : Nat := 0xFFF8
def fat16MinClusters : Nat := 4085
def fat16MaxClusters : Nat := 65524

/-- The fields of {lit}`fat16_boot_sector_t` that the driver uses. -/
structure BootSector where
  bytesPerSector : Nat
  sectorsPerCluster : Nat
  reservedSectorCount : Nat
  fatCount : Nat
  rootEntryCount : Nat
  totalSectors16 : Nat
  fatSize16 : Nat
  totalSectors32 : Nat
  signature : Nat
deriving DecidableEq

def decodeBoot (bytes : List UInt8) : BootSector where
  bytesPerSector := field bytes 11 2
  sectorsPerCluster := field bytes 13 1
  reservedSectorCount := field bytes 14 2
  fatCount := field bytes 16 1
  rootEntryCount := field bytes 17 2
  totalSectors16 := field bytes 19 2
  fatSize16 := field bytes 22 2
  totalSectors32 := field bytes 32 4
  signature := field bytes 510 2

/-- The number of sectors of the volume. -/
def BootSector.total (boot : BootSector) : Nat :=
  if boot.totalSectors16 ≠ 0 then boot.totalSectors16 else boot.totalSectors32

/-- The fields of {lit}`fat16_device_t` that describe the volume. -/
structure Device where
  diskno : Nat
  boot : BootSector
  rootDirSectors : Nat
  firstFatSector : Nat
  firstRootDirSector : Nat
  firstDataSector : Nat
  bytesPerCluster : Nat
  totalSectors : Nat
  totalClusters : Nat
deriving DecidableEq

/-- {lit}`fat16_load_boot_sector`: read the boot sector, check it and derive the
layout of the volume. -/
def fat16LoadBootSector (disk : Ramdisk) (diskno : Nat) : FatM Device := do
  let boot := decodeBoot (← fat16ReadRaw disk .boot 0 fat16SectorSize)
  let spc := boot.sectorsPerCluster
  let total := boot.total
  if boot.signature ≠ 0xAA55 then
    failWith .NbadFilesystem
  else if boot.bytesPerSector ≠ fat16SectorSize then
    failWith .Nunsupported
  else if spc = 0 ∨ spc > 128 ∨ spc &&& (spc - 1) ≠ 0 then
    failWith .NbadFilesystem
  else if boot.reservedSectorCount = 0 ∨ boot.fatCount = 0 ∨ boot.fatCount > 2 ∨
      boot.fatSize16 = 0 ∨ boot.rootEntryCount = 0 then
    failWith .NbadFilesystem
  else if total = 0 ∨ total > 0xFFFFFFFF then
    failWith .NbadFilesystem
  else
    let rootDirSectors := (boot.rootEntryCount * fat16EntrySize + fat16SectorSize - 1) /
      fat16SectorSize
    let firstRoot := boot.reservedSectorCount + boot.fatCount * boot.fatSize16
    let firstData := firstRoot + rootDirSectors
    let clusters := (total - firstData) / spc
    if firstData ≥ total then
      failWith .NbadFilesystem
    else if clusters < fat16MinClusters ∨ clusters > fat16MaxClusters then
      failWith .NbadFilesystem
    else if boot.fatSize16 * fat16SectorSize < (clusters + 2) * 2 then
      failWith .NbadFilesystem
    else
      pure {
        diskno := diskno
        boot := boot
        totalSectors := ← word 32 total
        rootDirSectors := ← word 32 rootDirSectors
        firstFatSector := ← word 32 boot.reservedSectorCount
        firstRootDirSector := ← word 32 firstRoot
        firstDataSector := ← word 32 firstData
        bytesPerCluster := ← word 32 (fat16SectorSize * spc)
        totalClusters := ← word 32 clusters }

/-! ## Sectors and clusters -/

/-- {lit}`fat16_read_sector`. -/
def fat16ReadSector (disk : Ramdisk) (region : Region) (sector : Nat) : FatM (List UInt8) := do
  let offset ← word 64 (sector * fat16SectorSize)
  fat16ReadRaw disk region offset fat16SectorSize

/-- {lit}`fat16_is_eoc`. -/
def fat16IsEoc (cluster : Nat) : Bool :=
  decide (fat16ClusterEoc ≤ cluster)

/-- {lit}`fat16_cluster_valid`. -/
def fat16ClusterValid (dev : Device) (cluster : Nat) : FatM Bool := do
  if cluster < 2 then
    pure false
  else
    let last ← word 32 (dev.totalClusters + 2)
    pure (decide (cluster < last))

/-- {lit}`fat16_get_fat_entry`. -/
def fat16GetFatEntry (disk : Ramdisk) (dev : Device) (cluster : Nat) : FatM Nat := do
  if (← fat16ClusterValid dev cluster) = false then
    failWith .NfileCorrupted
  else
    let offset ← word 64 (dev.firstFatSector * fat16SectorSize + cluster * 2)
    let entry ← fat16ReadRaw disk .fat offset 2
    pure (leNat entry)

/-- The loop of {lit}`fat16_get_nth_cluster`. -/
def nthLoop (disk : Ramdisk) (dev : Device) : (n cluster : Nat) → FatM Nat
  | 0, cluster => pure cluster
  | n + 1, cluster => do
      let next ← fat16GetFatEntry disk dev cluster
      if fat16IsEoc next then
        failWith .NnotFound
      else if next = fat16ClusterBad then
        failWith .NfileCorrupted
      else if (← fat16ClusterValid dev next) = false then
        failWith .NfileCorrupted
      else
        nthLoop disk dev n next

/-- {lit}`fat16_get_nth_cluster`: the cluster at an index of a chain. -/
def fat16GetNthCluster (disk : Ramdisk) (dev : Device) (startCluster index : Nat) : FatM Nat := do
  if (← fat16ClusterValid dev startCluster) = false ∨ index ≥ dev.totalClusters then
    failWith .NfileCorrupted
  else
    nthLoop disk dev index startCluster

/-! ## What is in order -/

/-- A cluster of the data area. -/
def Device.Valid (dev : Device) (cluster : Nat) : Prop :=
  2 ≤ cluster ∧ cluster < dev.totalClusters + 2

instance (dev : Device) (cluster : Nat) : Decidable (dev.Valid cluster) :=
  inferInstanceAs (Decidable (_ ∧ _))

/-- The first byte of a cluster. -/
def Device.clusterStart (dev : Device) (cluster : Nat) : Nat :=
  (dev.firstDataSector + (cluster - 2) * dev.boot.sectorsPerCluster) * fat16SectorSize

/-- A range of bytes lies inside a region that a mounted volume is read in: the first copy
of the table, the root directory, or the data of a valid cluster. -/
def Device.Covers (dev : Device) (offset size : Nat) : Region → Prop
  | .boot => False
  | .fat => dev.firstFatSector * fat16SectorSize ≤ offset ∧
      offset + size ≤ (dev.firstFatSector + dev.boot.fatSize16) * fat16SectorSize
  | .root => dev.firstRootDirSector * fat16SectorSize ≤ offset ∧
      offset + size ≤ (dev.firstRootDirSector + dev.rootDirSectors) * fat16SectorSize
  | .data cluster => dev.Valid cluster ∧ dev.clusterStart cluster ≤ offset ∧
      offset + size ≤ dev.clusterStart cluster + dev.bytesPerCluster

/-- An access inside its region and inside the volume, or a computation that does not
wrap. -/
def Event.Ok (dev : Device) : Event → Prop
  | .access region offset size => dev.Covers offset size region ∧
      offset + size ≤ dev.totalSectors * fat16SectorSize
  | .word width exact => 0 ≤ exact ∧ exact < 2 ^ width

/-- Everything recorded is in order. -/
def Safe (dev : Device) (log : List Event) : Prop :=
  ∀ e ∈ log, e.Ok dev

/-- What the checks of the boot sector leave. -/
structure Accepted (dev : Device) : Prop where
  spc_pos : 0 < dev.boot.sectorsPerCluster
  spc_le : dev.boot.sectorsPerCluster ≤ 128
  cluster_bytes : dev.bytesPerCluster = fat16SectorSize * dev.boot.sectorsPerCluster
  fat_root : dev.firstFatSector + dev.boot.fatSize16 ≤ dev.firstRootDirSector
  root_data : dev.firstRootDirSector + dev.rootDirSectors = dev.firstDataSector
  data_end : dev.firstDataSector + dev.totalClusters * dev.boot.sectorsPerCluster ≤
    dev.totalSectors
  fat_bytes : (dev.totalClusters + 2) * 2 ≤ dev.boot.fatSize16 * fat16SectorSize
  clusters_ge : fat16MinClusters ≤ dev.totalClusters
  clusters_le : dev.totalClusters ≤ fat16MaxClusters
  total_lt : dev.totalSectors < 2 ^ 32

/-- What reading a range of the disk gives. -/
def readOf (disk : Ramdisk) (offset size : Nat) : Except Stop (List UInt8) :=
  match ramdiskRead disk offset size with
  | .error e => .error (.status e)
  | .ok bytes => .ok bytes

theorem fat16ReadRaw_run (disk : Ramdisk) (region : Region) (offset : Nat) {size : Nat}
    (hsize : size ≠ 0) (log : List Event) :
    fat16ReadRaw disk region offset size log =
      (readOf disk offset size, .access region offset size :: log) := by
  unfold fat16ReadRaw readOf
  rw [if_neg hsize]
  cases hread : ramdiskRead disk offset size with
  | error e => simp [record, failWith]
  | ok bytes => simp [record]

/-- The numbers in a boot sector are those of its fields. -/
structure BootSector.Fits (boot : BootSector) : Prop where
  reserved : boot.reservedSectorCount < 2 ^ 16
  entries : boot.rootEntryCount < 2 ^ 16
  fatSize : boot.fatSize16 < 2 ^ 16

theorem decodeBoot_fits (bytes : List UInt8) : (decodeBoot bytes).Fits where
  reserved := field_lt bytes 14 2
  entries := field_lt bytes 17 2
  fatSize := field_lt bytes 22 2

/-- Loading reads the first sector, and everything else that it records is in order. -/
def LoadSafe (dev : Device) (log : List Event) : Prop :=
  ∀ e ∈ log, e = .access .boot 0 fat16SectorSize ∨ e.Ok dev

/-- An accepted boot sector describes a volume whose regions lie one behind the other
inside it, and nothing has wrapped in deriving them. -/
theorem fat16LoadBootSector_accepts (disk : Ramdisk) (diskno : Nat) :
    Eff.Post (fat16LoadBootSector disk diskno) [] (fun r log => ∀ dev, r = .ok dev →
      Accepted dev ∧ LoadSafe dev log) := by
  have hstop : ∀ {log : List Event} (e : Nstatus),
      Eff.Post (failWith e : FatM Device) log (fun r log => ∀ dev, r = .ok dev →
        Accepted dev ∧ LoadSafe dev log) :=
    fun e => Eff.post_of_eq rfl (fun dev hdev => by cases hdev)
  have hread := fat16ReadRaw_run disk .boot 0 (show fat16SectorSize ≠ 0 by decide) []
  unfold fat16LoadBootSector
  cases hres : readOf disk 0 fat16SectorSize with
  | error e =>
      rw [hres] at hread
      exact Eff.post_bind_error hread (fun dev hdev => by cases hdev)
  | ok bytes =>
      rw [hres] at hread
      refine Eff.post_bind_ok hread ?_
      have hfits := decodeBoot_fits bytes
      obtain ⟨boot, hboot⟩ : ∃ boot, boot = decodeBoot bytes := ⟨_, rfl⟩
      rw [← hboot] at hfits ⊢
      dsimp only
      split
      · exact hstop _
      split
      · exact hstop _
      split
      · exact hstop _
      next hspc =>
      split
      · exact hstop _
      next hcounts =>
      split
      · exact hstop _
      next htotal =>
      split
      · exact hstop _
      next hdata =>
      split
      · exact hstop _
      next hclusters =>
      split
      · exact hstop _
      next hfat =>
      refine Eff.post_of_eq rfl ?_
      rintro dev ⟨⟩
      obtain ⟨hres, hent, hsize⟩ := hfits
      have hsector : fat16SectorSize = 512 := rfl
      have hentry : fat16EntrySize = 32 := rfl
      have hmax : fat16MaxClusters = 65524 := rfl
      -- the sectors of the table are at most two copies of a 16-bit count
      have hcopies : boot.fatSize16 ≤ boot.fatCount * boot.fatSize16 ∧
          boot.fatCount * boot.fatSize16 ≤ 2 * boot.fatSize16 :=
        ⟨Nat.le_mul_of_pos_left _ (by omega), Nat.mul_le_mul_right _ (by omega)⟩
      obtain ⟨copies, hcopy⟩ : ∃ copies, copies = boot.fatCount * boot.fatSize16 := ⟨_, rfl⟩
      obtain ⟨roots, hroots⟩ : ∃ roots, roots =
        (boot.rootEntryCount * fat16EntrySize + fat16SectorSize - 1) / fat16SectorSize := ⟨_, rfl⟩
      obtain ⟨clusters, hclus⟩ : ∃ clusters, clusters =
        (boot.total - (boot.reservedSectorCount + copies + roots)) / boot.sectorsPerCluster :=
        ⟨_, rfl⟩
      rw [← hcopy] at hcopies
      rw [← hcopy, ← hroots] at hdata
      rw [← hcopy, ← hroots, ← hclus] at hclusters hfat
      have hfill : clusters * boot.sectorsPerCluster ≤
          boot.total - (boot.reservedSectorCount + copies + roots) := by
        rw [hclus]
        exact Nat.div_mul_le_self _ _
      have hrootlt : roots < 2 ^ 32 := by
        rw [hroots, hsector, hentry]
        omega
      have hbytes : fat16SectorSize * boot.sectorsPerCluster < 2 ^ 32 := by
        rw [hsector]
        omega
      simp only [← hcopy, ← hroots, ← hclus]
      rw [Nat.mod_eq_of_lt (show boot.total < 2 ^ 32 by omega), Nat.mod_eq_of_lt hrootlt,
        Nat.mod_eq_of_lt (show boot.reservedSectorCount < 2 ^ 32 by omega),
        Nat.mod_eq_of_lt (show boot.reservedSectorCount + copies < 2 ^ 32 by omega),
        Nat.mod_eq_of_lt (show boot.reservedSectorCount + copies + roots < 2 ^ 32 by omega),
        Nat.mod_eq_of_lt hbytes, Nat.mod_eq_of_lt (show clusters < 2 ^ 32 by omega)]
      refine ⟨?_, ?_⟩
      · exact {
          spc_pos := by dsimp only; omega
          spc_le := by dsimp only; omega
          cluster_bytes := rfl
          fat_root := by dsimp only; omega
          root_data := rfl
          data_end := by dsimp only; omega
          fat_bytes := by dsimp only; omega
          clusters_ge := by dsimp only; omega
          clusters_le := by dsimp only; omega
          total_lt := by dsimp only; omega }
      · intro e he
        simp only [List.mem_cons, List.not_mem_nil, or_false] at he
        rcases he with rfl | rfl | rfl | rfl | rfl | rfl | rfl | rfl
        case inr.inr.inr.inr.inr.inr.inr => exact Or.inl rfl
        all_goals
          refine Or.inr ?_
          simp only [Event.Ok, hsector] at hbytes ⊢
          omega

/-! ## Computations in order -/

/-- Everything the computation records is in order, and its outcome is as given. -/
def Meets {α : Type} (dev : Device) (c : FatM α) (P : Except Stop α → Prop) : Prop :=
  ∀ log, Safe dev log → Safe dev (c log).2 ∧ P (c log).1

variable {dev : Device} {disk : Ramdisk}

section Rules

variable {α β : Type} {c : FatM α} {f : α → FatM β} {P : Except Stop α → Prop}
  {Q : Except Stop β → Prop}

theorem Meets.pure {x : α} (h : P (.ok x)) : Meets dev (pure x : FatM α) P :=
  fun _ hlog => ⟨hlog, h⟩

theorem Meets.fail {e : Nstatus} (h : P (.error (.status e))) :
    Meets dev (failWith e : FatM α) P :=
  fun _ hlog => ⟨hlog, h⟩

theorem Meets.mono {R : Except Stop α → Prop} (h : Meets dev c P) (hPR : ∀ r, P r → R r) :
    Meets dev c R :=
  fun log hlog => ⟨(h log hlog).1, hPR _ (h log hlog).2⟩

theorem Meets.bind (hc : Meets dev c P) (herr : ∀ e, P (.error e) → Q (.error e))
    (hok : ∀ x, P (.ok x) → Meets dev (f x) Q) : Meets dev (c >>= f) Q := by
  intro log hlog
  obtain ⟨hsafe, hP⟩ := hc log hlog
  cases hrun : c log with
  | mk r log' =>
      rw [hrun] at hsafe hP
      cases r with
      | error e =>
          rw [Eff.bind_error hrun]
          exact ⟨hsafe, herr e hP⟩
      | ok x =>
          rw [Eff.bind_ok hrun]
          exact hok x hP log' hsafe

theorem Safe.cons {e : Event} {log : List Event} (he : e.Ok dev) (h : Safe dev log) :
    Safe dev (e :: log) := by
  intro e' he'
  rcases List.mem_cons.mp he' with rfl | he'
  · exact he
  · exact h e' he'

/-- A result that fits its word is kept. -/
theorem Meets.word {width n : Nat} {f : Nat → FatM β} (hn : n < 2 ^ width)
    (hf : Meets dev (f n) Q) : Meets dev (word width n >>= f) Q := by
  intro log hlog
  have hrun : Fat16.word width n log = (.ok n, .word width n :: log) := by
    simp [Fat16.word, record, Nat.mod_eq_of_lt hn]
  rw [Eff.bind_ok hrun]
  refine hf _ (Safe.cons ⟨Int.natCast_nonneg n, ?_⟩ hlog)
  exact_mod_cast hn

theorem Meets.wordSub {width a b : Nat} {f : Nat → FatM β} (ha : a < 2 ^ width) (hb : b ≤ a)
    (hf : Meets dev (f (a - b)) Q) : Meets dev (wordSub width a b >>= f) Q := by
  intro log hlog
  have hmod : (a + 2 ^ width - b) % 2 ^ width = a - b := by
    rw [show a + 2 ^ width - b = a - b + 2 ^ width by omega, Nat.add_mod_right,
      Nat.mod_eq_of_lt (by omega)]
  have hrun : Fat16.wordSub width a b log =
      (.ok (a - b), .word width ((a : Int) - b) :: log) := by
    simp [Fat16.wordSub, record, hmod]
  rw [Eff.bind_ok hrun]
  refine hf _ (Safe.cons ⟨by omega, ?_⟩ hlog)
  have hwide : ((a : Int)) < 2 ^ width := by exact_mod_cast ha
  omega

theorem Meets.readRaw {region : Region} {offset size : Nat} (hsize : size ≠ 0)
    (hok : (Event.access region offset size).Ok dev) :
    Meets dev (fat16ReadRaw disk region offset size) (fun r => r = readOf disk offset size) := by
  intro log hlog
  rw [fat16ReadRaw_run disk region offset hsize]
  exact ⟨Safe.cons hok hlog, rfl⟩

end Rules

/-! ## Sectors and chains in order -/

/-- Reading a whole sector of the volume. -/
theorem fat16ReadSector_meets (hdev : Accepted dev) {region : Region} {sector : Nat}
    (hsector : sector < dev.totalSectors)
    (hcovers : dev.Covers (sector * fat16SectorSize) fat16SectorSize region) :
    Meets dev (fat16ReadSector disk region sector)
      (fun r => r = readOf disk (sector * fat16SectorSize) fat16SectorSize) := by
  have htotal := hdev.total_lt
  have hsize : fat16SectorSize = 512 := rfl
  refine Meets.word (by rw [hsize]; omega) (Meets.readRaw (by decide) ⟨hcovers, ?_⟩)
  rw [hsize]
  omega

theorem fat16ClusterValid_bind {β : Type} {f : Bool → FatM β} {Q : Except Stop β → Prop}
    (hdev : Accepted dev) {cluster : Nat}
    (hf : Meets dev (f (decide (dev.Valid cluster))) Q) :
    Meets dev (fat16ClusterValid dev cluster >>= f) Q := by
  have hmax : fat16MaxClusters = 65524 := rfl
  have hclusters := hdev.clusters_le
  refine Meets.bind (P := fun r => r = .ok (decide (dev.Valid cluster))) ?_ ?_ ?_
  · unfold fat16ClusterValid
    split
    next hlow =>
      refine Meets.pure (congrArg _ (decide_eq_false ?_).symm)
      exact fun hcon => Nat.not_le.mpr hlow hcon.1
    next hlow =>
      refine Meets.word (by omega) (Meets.pure (congrArg _ (decide_eq_decide.mpr ?_)))
      exact ⟨fun hlt => ⟨by omega, hlt⟩, fun hvalid => hvalid.2⟩
  · intro e he
    cases he
  · intro x hx
    cases hx
    exact hf

/-- The entry of a cluster in the first copy of the table. -/
def fatEntry (disk : Ramdisk) (dev : Device) (cluster : Nat) : Except Stop Nat :=
  (readOf disk (dev.firstFatSector * fat16SectorSize + cluster * 2) 2).map leNat

/-- The entry of a valid cluster is read inside the table. -/
theorem fat16GetFatEntry_meets (hdev : Accepted dev) {cluster : Nat} (hvalid : dev.Valid cluster) :
    Meets dev (fat16GetFatEntry disk dev cluster) (fun r => r = fatEntry disk dev cluster) := by
  have hsize : fat16SectorSize = 512 := rfl
  have hmax : fat16MaxClusters = 65524 := rfl
  have hclusters := hdev.clusters_le
  have hfat := hdev.fat_bytes
  have hroot := hdev.fat_root
  have hdata := hdev.root_data
  have hend := hdev.data_end
  have htotal := hdev.total_lt
  have hlast := hvalid.2
  unfold fat16GetFatEntry
  refine fat16ClusterValid_bind hdev ?_
  rw [if_neg (by simpa using hvalid)]
  refine Meets.word (by rw [hsize]; omega) ?_
  refine Meets.bind (Meets.readRaw (by decide) ⟨⟨by omega, ?_⟩, ?_⟩) ?_ ?_
  · rw [hsize] at hfat ⊢
    omega
  · rw [hsize] at hfat ⊢
    omega
  · intro e he
    simp [fatEntry, ← he, Except.map]
  · intro bytes hbytes
    refine Meets.pure ?_
    simp [fatEntry, ← hbytes, Except.map]

/-- The entry of a cluster leads to another cluster of the data area. -/
def Links (disk : Ramdisk) (dev : Device) (cluster next : Nat) : Prop :=
  fatEntry disk dev cluster = .ok next ∧ dev.Valid next

/-- A valid cluster is neither the mark of a bad cluster nor an end mark. -/
theorem Accepted.not_mark (hdev : Accepted dev) {cluster : Nat} (h : dev.Valid cluster) :
    fat16IsEoc cluster = false ∧ cluster ≠ fat16ClusterBad := by
  have hmax : fat16MaxClusters = 65524 := rfl
  have heoc : fat16ClusterEoc = 65528 := rfl
  have hbad : fat16ClusterBad = 65527 := rfl
  have hclusters := hdev.clusters_le
  have hlast := h.2
  refine ⟨decide_eq_false (by omega), by omega⟩

/-- The loop along a chain stays inside the table, ends in a valid cluster, and finds
the clusters of a chain in order. -/
theorem nthLoop_meets (hdev : Accepted dev) (n : Nat) {cluster : Nat}
    (hvalid : dev.Valid cluster) :
    Meets dev (nthLoop disk dev n cluster) (fun r => (∀ x, r = .ok x → dev.Valid x) ∧
      ∀ cs x, (cluster :: cs).IsChain (Links disk dev) → (cluster :: cs)[n]? = some x →
        r = .ok x) := by
  induction n generalizing cluster with
  | zero =>
      refine Meets.pure ⟨?_, ?_⟩
      · rintro x ⟨⟩
        exact hvalid
      · rintro cs x _ ⟨⟩
        rfl
  | succ n ih =>
      refine Meets.bind (fat16GetFatEntry_meets hdev hvalid) ?_ ?_
      · intro e he
        refine ⟨nofun, fun cs x hchain hx => ?_⟩
        cases cs with
        | nil => simp at hx
        | cons c cs =>
            have hlink := (List.isChain_cons_cons.mp hchain).1.1
            rw [← he] at hlink
            cases hlink
      · intro next hnext
        have hleads : ∀ cs x, (cluster :: cs).IsChain (Links disk dev) →
            (cluster :: cs)[n + 1]? = some x → ∃ rest, cs = next :: rest ∧ dev.Valid next ∧
              (next :: rest).IsChain (Links disk dev) ∧ (next :: rest)[n]? = some x := by
          intro cs x hchain hx
          cases cs with
          | nil => simp at hx
          | cons c cs =>
              obtain ⟨⟨hlink, hc⟩, hrest⟩ := List.isChain_cons_cons.mp hchain
              rw [← hnext] at hlink
              cases hlink
              exact ⟨cs, rfl, hc, hrest, by simpa using hx⟩
        split
        next heoc =>
          refine Meets.fail ⟨nofun, fun cs x hchain hx => ?_⟩
          obtain ⟨_, _, hc, _⟩ := hleads cs x hchain hx
          rw [(hdev.not_mark hc).1] at heoc
          cases heoc
        split
        next hbad =>
          refine Meets.fail ⟨nofun, fun cs x hchain hx => ?_⟩
          obtain ⟨_, _, hc, _⟩ := hleads cs x hchain hx
          exact absurd hbad (hdev.not_mark hc).2
        refine fat16ClusterValid_bind hdev ?_
        split
        next hinvalid =>
          refine Meets.fail ⟨nofun, fun cs x hchain hx => ?_⟩
          obtain ⟨_, _, hc, _⟩ := hleads cs x hchain hx
          exact absurd hc (by simpa using hinvalid)
        next hnextvalid =>
          refine (ih (by simpa using hnextvalid)).mono ?_
          rintro r ⟨hres, hfound⟩
          refine ⟨hres, fun cs x hchain hx => ?_⟩
          obtain ⟨rest, _, _, hrest, hx'⟩ := hleads cs x hchain hx
          exact hfound rest x hrest hx'

/-- A chain of clusters from a given one, no longer than the table has clusters. -/
structure ClusterChain (disk : Ramdisk) (dev : Device) (start : Nat) (cs : List Nat) : Prop where
  head : cs.head? = some start
  valid : dev.Valid start
  linked : cs.IsChain (Links disk dev)
  length_le : cs.length ≤ dev.totalClusters

/-- The cluster at an index of a chain is found inside the table. -/
theorem fat16GetNthCluster_meets (hdev : Accepted dev) (start index : Nat) :
    Meets dev (fat16GetNthCluster disk dev start index) (fun r =>
      (∀ x, r = .ok x → dev.Valid x) ∧
      ∀ cs x, ClusterChain disk dev start cs → cs[index]? = some x → r = .ok x) := by
  unfold fat16GetNthCluster
  refine fat16ClusterValid_bind hdev ?_
  split
  next hbad =>
    refine Meets.fail ⟨nofun, fun cs x hchain hx => ?_⟩
    rcases hbad with hbad | hbad
    · exact absurd hchain.valid (by simpa using hbad)
    · have hlt : index < cs.length := (List.getElem?_eq_some_iff.mp hx).1
      have hle := hchain.length_le
      omega
  next hgood =>
    rw [not_or] at hgood
    refine (nthLoop_meets hdev index (by simpa using hgood.1)).mono ?_
    rintro r ⟨hres, hfound⟩
    refine ⟨hres, fun cs x hchain hx => ?_⟩
    cases cs with
    | nil => simp at hx
    | cons c cs =>
        obtain rfl : c = start := by simpa using hchain.head
        exact hfound cs x hchain.linked hx

end Fat16
end Nyxis
