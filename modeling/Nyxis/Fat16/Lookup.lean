import Nyxis.Fat16.Directory

/-!
# FAT16 lookups

What {lit}`fat16_find_entry_in_directory` returns, in terms of the entries of a directory
in the order of its sectors.  A chain of clusters may be cyclic or broken, so a directory
is given by its portions: the entries of any part of the chain that starts at the first
cluster.

Main results:

- Theorem {lit}`fat16FindEntryInDirectory_meets`: a lookup stays inside the volume, and a
  search along the entries of the directory explains its outcome.
- Theorem {lit}`fat16_lookup_law`: what a lookup returns.
-/

namespace Nyxis
namespace Fat16

open Bytes

variable {dev : Device} {disk : Ramdisk}

/-! ## The entries of a directory -/

/-- The bytes of a sector. -/
def sectorAt (disk : Ramdisk) (sector : Nat) : List UInt8 :=
  bytesAt disk.bytes (sector * fat16SectorSize) fat16SectorSize

/-- The entries of consecutive sectors. -/
def entriesFrom (disk : Ramdisk) (first start count : Nat) : List DirEntry :=
  (List.range' start count).flatMap (fun i => sectorEntries (sectorAt disk (first + i)))

/-- The entries of the root area. -/
def rootEntries (disk : Ramdisk) (dev : Device) : List DirEntry :=
  entriesFrom disk dev.firstRootDirSector 0 dev.rootDirSectors

/-- The first sector of a cluster. -/
def Device.clusterSector (dev : Device) (cluster : Nat) : Nat :=
  dev.firstDataSector + (cluster - 2) * dev.boot.sectorsPerCluster

/-- The entries of a cluster. -/
def clusterEntries (disk : Ramdisk) (dev : Device) (cluster : Nat) : List DirEntry :=
  entriesFrom disk (dev.clusterSector cluster) 0 dev.boot.sectorsPerCluster

/-- The entries of a part of a chain that starts at the given cluster. -/
def ChainPortion (disk : Ramdisk) (dev : Device) (start : Nat) (entries : List DirEntry) : Prop :=
  ∃ cs, dev.Valid start ∧ (start :: cs).IsChain (Links disk dev) ∧
    entries = (start :: cs).flatMap (clusterEntries disk dev)

/-- The portions of a directory: the root area, or the parts of its chain. -/
def Portion (disk : Ramdisk) (dev : Device) (start : Nat) (rootDirectory : Bool)
    (entries : List DirEntry) : Prop :=
  if rootDirectory then entries = rootEntries disk dev else ChainPortion disk dev start entries

theorem entriesFrom_succ (first start count : Nat) :
    entriesFrom disk first start (count + 1) =
      sectorEntries (sectorAt disk (first + start)) ++ entriesFrom disk first (start + 1) count := by
  rw [entriesFrom, List.range'_succ, List.flatMap_cons, entriesFrom]

theorem length_name_of_mem_sectorEntries {sector : List UInt8}
    (hlen : sector.length = fat16SectorSize) {entry : DirEntry} (h : entry ∈ sectorEntries sector) :
    entry.name.length = fat16NameLength := by
  obtain ⟨j, hj, rfl⟩ := List.mem_map.mp h
  have hsector : fat16SectorSize = 512 := rfl
  have hentry : fat16EntrySize = 32 := rfl
  have hname : fat16NameLength = 11 := rfl
  rw [List.mem_range, hsector, hentry] at hj
  simp only [entryOf, decodeEntry, List.length_take, List.length_drop, hlen, hsector, hentry, hname]
  omega

theorem length_name_of_mem_entriesFrom {first start count : Nat} {entry : DirEntry}
    (h : entry ∈ entriesFrom disk first start count) : entry.name.length = fat16NameLength := by
  obtain ⟨i, _, hi⟩ := List.mem_flatMap.mp h
  exact length_name_of_mem_sectorEntries (length_bytesAt _ _ _) hi

/-- Every entry of a directory has a name of eleven bytes. -/
theorem Portion.length_name {start : Nat} {rootDirectory : Bool} {entries : List DirEntry}
    (h : Portion disk dev start rootDirectory entries) {entry : DirEntry} (hentry : entry ∈ entries) :
    entry.name.length = fat16NameLength := by
  unfold Portion at h
  split at h
  · rw [h] at hentry
    exact length_name_of_mem_entriesFrom hentry
  · obtain ⟨cs, _, _, rfl⟩ := h
    obtain ⟨c, _, hc⟩ := List.mem_flatMap.mp hentry
    exact length_name_of_mem_entriesFrom hc

/-! ## Outcomes of lookups -/

/-- The outcome of a lookup among the portions of a directory: it returns, it returns the
first entry and there is no other, and it reports that there is none only if there is
none. -/
structure LookupLaw (First : List DirEntry → DirEntry → Prop) (portion : List DirEntry → Prop)
    (r : Except Stop (DirEntry × Nat)) : Prop where
  returns : ∀ stop, r = .error stop → ∃ e, stop = .status e
  found : ∀ entry inode, r = .ok (entry, inode) → ∃ entries, portion entries ∧ First entries entry
  unique : ∀ entry inode, r = .ok (entry, inode) → ∀ entries other, portion entries →
    First entries other → other = entry
  absent : r = .error (.status .NfileNotFound) → ∀ entries entry, portion entries →
    ¬First entries entry

/-- What a search along entries finds. -/
def Finds (name : List UInt8) (entries : List DirEntry) (entry : DirEntry) : Prop :=
  search name entries = .found entry

section Outcomes

variable {name : List UInt8} {portion rest : List DirEntry → Prop} {first : List DirEntry}
  {r : Except Stop (DirEntry × Nat)}

/-- A failure of another kind says nothing. -/
theorem LookupLaw.failed {e : Nstatus} (he : e ≠ .NfileNotFound) :
    LookupLaw (Finds name) portion (.error (.status e)) where
  returns := by
    rintro _ ⟨⟩
    exact ⟨e, rfl⟩
  found := nofun
  unique := nofun
  absent := by
    rintro ⟨⟩
    exact absurd rfl he

/-- The entry stands among the first entries of every portion. -/
theorem LookupLaw.of_found {entry : DirEntry} {inode : Nat}
    (hfirst : search name first = .found entry) (hsome : ∃ entries, portion entries)
    (hall : ∀ entries, portion entries → ∃ more, entries = first ++ more) :
    LookupLaw (Finds name) portion (.ok (entry, inode)) := by
  have hsearch : ∀ entries, portion entries → search name entries = .found entry := by
    intro entries hentries
    obtain ⟨more, rfl⟩ := hall entries hentries
    rw [search_append, hfirst]
  exact {
    returns := nofun
    found := by
      rintro _ _ ⟨⟩
      obtain ⟨entries, hentries⟩ := hsome
      exact ⟨entries, hentries, hsearch entries hentries⟩
    unique := by
      rintro _ _ ⟨⟩ entries other hentries hother
      rw [Finds, hsearch entries hentries] at hother
      cases hother
      rfl
    absent := nofun }

/-- No portion has an entry that answers. -/
theorem LookupLaw.not_found (hnone : ∀ entries entry, portion entries →
    search name entries ≠ .found entry) :
    LookupLaw (Finds name) portion (.error (.status .NfileNotFound)) where
  returns := by
    rintro _ ⟨⟩
    exact ⟨_, rfl⟩
  found := nofun
  unique := nofun
  absent := fun _ => hnone

/-- The directory ends among the first entries of every portion. -/
theorem LookupLaw.of_ended (hfirst : search name first = .ended)
    (hall : ∀ entries, portion entries → ∃ more, entries = first ++ more) :
    LookupLaw (Finds name) portion (.error (.status .NfileNotFound)) := by
  refine LookupLaw.not_found (fun entries entry hentries => ?_)
  obtain ⟨more, rfl⟩ := hall entries hentries
  rw [search_append, hfirst]
  nofun

/-- The first entries do not matter, so the lookup goes on behind them. -/
theorem LookupLaw.of_absent (hfirst : search name first = .absent)
    (hadd : ∀ entries, rest entries → portion (first ++ entries))
    (hall : ∀ entries, portion entries → entries = first ∨
      ∃ more, rest more ∧ entries = first ++ more)
    (h : LookupLaw (Finds name) rest r) : LookupLaw (Finds name) portion r := by
  have hskip : ∀ more, search name (first ++ more) = search name more := by
    intro more
    rw [search_append, hfirst]
  have hback : ∀ entries entry, portion entries → search name entries = .found entry →
      ∃ more, rest more ∧ search name more = .found entry := by
    intro entries entry hentries hentry
    rcases hall entries hentries with rfl | ⟨more, hmore, rfl⟩
    · rw [hfirst] at hentry
      cases hentry
    · rw [hskip] at hentry
      exact ⟨more, hmore, hentry⟩
  exact {
    returns := h.returns
    found := by
      intro entry inode hr
      obtain ⟨entries, hentries, hentry⟩ := h.found entry inode hr
      exact ⟨first ++ entries, hadd entries hentries, (hskip entries).trans hentry⟩
    unique := by
      intro entry inode hr entries other hentries hother
      obtain ⟨more, hmore, hfound⟩ := hback entries other hentries hother
      exact h.unique entry inode hr more other hmore hfound
    absent := by
      intro hr entries entry hentries hentry
      obtain ⟨more, hmore, hfound⟩ := hback entries entry hentries hentry
      exact h.absent hr more entry hmore hfound }

end Outcomes

/-- Reading a range gives its bytes, or the range does not lie on the disk. -/
theorem readOf_cases (disk : Ramdisk) (offset : Nat) {size : Nat} (hsize : size ≠ 0) :
    readOf disk offset size = .ok (bytesAt disk.bytes offset size) ∨
      readOf disk offset size = .error (.status .Noverflow) := by
  unfold readOf ramdiskRead
  rw [if_neg hsize]
  split
  next h =>
    split at h
    · cases h
      exact Or.inr rfl
    · cases h
  next h =>
    split at h
    · cases h
    · cases h
      exact Or.inl rfl

/-! ## The loops -/

/-- Reading a sector of the volume gives its bytes, or the sector is not on the disk. -/
theorem fat16ReadSector_bind {β : Type} {f : List UInt8 → FatM β} {Q : Except Stop β → Prop}
    (hdev : Accepted dev) {region : Region} {sector : Nat} (hsector : sector < dev.totalSectors)
    (hcovers : dev.Covers (sector * fat16SectorSize) fat16SectorSize region)
    (herr : Q (.error (.status .Noverflow))) (hf : Meets dev (f (sectorAt disk sector)) Q) :
    Meets dev (fat16ReadSector disk region sector >>= f) Q := by
  have hread := readOf_cases disk (sector * fat16SectorSize) (show fat16SectorSize ≠ 0 by decide)
  refine Meets.bind (fat16ReadSector_meets hdev hsector hcovers) ?_ ?_
  · intro e he
    rcases hread with hok | hover
    · rw [hok] at he
      cases he
    · rw [hover] at he
      cases he
      exact herr
  · intro bytes hbytes
    rcases hread with hok | hover
    · rw [hok] at hbytes
      rw [Except.ok.inj hbytes]
      exact hf
    · rw [hover] at hbytes
      cases hbytes

/-- The loop over the root area from one of its sectors on. -/
theorem rootLoop_meets (hdev : Accepted dev) (name : List UInt8) {n i : Nat}
    (hi : i + n = dev.rootDirSectors) :
    Meets dev (rootLoop disk dev name n i)
      (LookupLaw (Finds name) (fun entries =>
        entries = entriesFrom disk dev.firstRootDirSector i n)) := by
  induction n generalizing i with
  | zero =>
      refine Meets.fail (LookupLaw.not_found ?_)
      rintro _ entry rfl
      nofun
  | succ n ih =>
      have hroot := hdev.root_data
      have hend := hdev.data_end
      have htotal := hdev.total_lt
      have hsize : fat16SectorSize = 512 := rfl
      have hsector : dev.firstRootDirSector + i < dev.totalSectors := by
        have hclusters := hdev.clusters_ge
        have hmin : fat16MinClusters = 4085 := rfl
        have hpos : 0 < dev.totalClusters * dev.boot.sectorsPerCluster :=
          Nat.mul_pos (by omega) hdev.spc_pos
        omega
      rw [entriesFrom_succ]
      have hscan := fat16ScanSector_eq (sectorAt disk (dev.firstRootDirSector + i)) name
      refine Meets.word (by omega) (fat16ReadSector_bind hdev hsector ⟨?_, ?_⟩
        (LookupLaw.failed (by decide)) ?_)
      · rw [hsize]
        omega
      · rw [hsize]
        omega
      split
      next entry index hres =>
        rw [hres] at hscan
        exact Meets.pure (LookupLaw.of_found hscan.symm ⟨_, rfl⟩ (fun _ h => ⟨_, h⟩))
      next hres =>
        rw [hres] at hscan
        exact Meets.fail (LookupLaw.of_ended hscan.symm (fun _ h => ⟨_, h⟩))
      next hres =>
        rw [hres] at hscan
        refine (ih (by omega)).mono (fun r hr => LookupLaw.of_absent hscan.symm ?_ ?_ hr)
        · rintro _ rfl
          rfl
        · rintro _ rfl
          exact Or.inr ⟨_, rfl, rfl⟩

/-- The sectors of a valid cluster lie inside the volume. -/
theorem Accepted.clusterSector_lt (hdev : Accepted dev) {cluster i : Nat}
    (hvalid : dev.Valid cluster) (hi : i < dev.boot.sectorsPerCluster) :
    dev.clusterSector cluster + i < dev.totalSectors := by
  have hend := hdev.data_end
  have hle : (cluster - 2 + 1) * dev.boot.sectorsPerCluster ≤
      dev.totalClusters * dev.boot.sectorsPerCluster :=
    Nat.mul_le_mul_right _ (by have := hvalid.2; have := hvalid.1; omega)
  rw [Nat.add_mul, Nat.one_mul] at hle
  unfold Device.clusterSector
  omega

theorem Scan.eq_absent_of_entry {scan : Scan (DirEntry × Nat)} (h : scan.entry = .absent) :
    scan = .absent := by
  cases scan with
  | absent => rfl
  | ended => cases h
  | found x => cases h

/-- The loop over the sectors of a cluster searches the entries of the cluster. -/
theorem clusterLoop_meets (hdev : Accepted dev) (name : List UInt8) {cluster : Nat}
    (hvalid : dev.Valid cluster) {n i : Nat} (hi : i + n = dev.boot.sectorsPerCluster) :
    Meets dev (clusterLoop disk dev name cluster n i) (fun r =>
      r = .error (.status .Noverflow) ∨ ∃ scan, r = .ok scan ∧
        scan.entry = search name (entriesFrom disk (dev.clusterSector cluster) i n)) := by
  induction n generalizing i with
  | zero => exact Meets.pure (Or.inr ⟨.absent, rfl, rfl⟩)
  | succ n ih =>
      have htotal := hdev.total_lt
      have hlow := hvalid.1
      have hsector : dev.clusterSector cluster + i < dev.totalSectors :=
        hdev.clusterSector_lt hvalid (by omega)
      have hbytes := hdev.cluster_bytes
      have hclusters := hdev.clusters_le
      have hmax : fat16MaxClusters = 65524 := rfl
      have hlast := hvalid.2
      have hsize : fat16SectorSize = 512 := rfl
      have hscan := fat16ScanSector_eq (sectorAt disk (dev.clusterSector cluster + i)) name
      rw [entriesFrom_succ, search_append]
      rw [Device.clusterSector] at hscan hsector ⊢
      refine Meets.wordSub (by omega) hlow (Meets.word (by omega) (Meets.word (by omega)
        (Meets.word (by omega) ?_)))
      refine fat16ReadSector_bind hdev hsector ⟨hvalid, ?_, ?_⟩ (Or.inl rfl) ?_
      · refine Nat.mul_le_mul_right _ ?_
        omega
      · rw [hbytes, Device.clusterStart, hsize]
        omega
      split
      next hres =>
        rw [hres] at hscan
        rw [← hscan]
        exact ih (by omega)
      next hother =>
        refine Meets.pure (Or.inr ⟨_, rfl, ?_⟩)
        rw [← hscan]
        split
        next habsent => exact (hother (Scan.eq_absent_of_entry habsent)).elim
        · rfl

theorem fatEntry_error {cluster : Nat} {e : Stop} (h : .error e = fatEntry disk dev cluster) :
    e = .status .Noverflow := by
  unfold fatEntry at h
  rcases readOf_cases disk (dev.firstFatSector * fat16SectorSize + cluster * 2)
    (show (2 : Nat) ≠ 0 by decide) with hok | hover
  · rw [hok] at h
    cases h
  · rw [hover] at h
    cases h
    rfl

/-- A part of a chain is its first cluster alone, or goes on in the cluster that the
entry of the first one names. -/
theorem ChainPortion.cases {cluster next : Nat} (hnext : .ok next = fatEntry disk dev cluster)
    {entries : List DirEntry} (h : ChainPortion disk dev cluster entries) :
    entries = clusterEntries disk dev cluster ∨ ∃ more, ChainPortion disk dev next more ∧
      entries = clusterEntries disk dev cluster ++ more := by
  obtain ⟨cs, hvalid, hchain, rfl⟩ := h
  cases cs with
  | nil => exact Or.inl (List.flatMap_singleton _ _)
  | cons c cs =>
      obtain ⟨⟨hlink, hc⟩, hrest⟩ := List.isChain_cons_cons.mp hchain
      rw [← hnext] at hlink
      obtain rfl := Except.ok.inj hlink
      exact Or.inr ⟨_, ⟨cs, hc, hrest, rfl⟩, List.flatMap_cons⟩

/-- The loop along a chain. -/
theorem chainLoop_meets (hdev : Accepted dev) (name : List UInt8) (n cluster : Nat) :
    Meets dev (chainLoop disk dev name n cluster)
      (LookupLaw (Finds name) (ChainPortion disk dev cluster)) := by
  induction n generalizing cluster with
  | zero => exact Meets.fail (LookupLaw.failed (by decide))
  | succ n ih =>
      unfold chainLoop
      refine fat16ClusterValid_bind hdev ?_
      split
      · exact Meets.fail (LookupLaw.failed (by decide))
      next hvalid =>
      have hvalid : dev.Valid cluster := by simpa using hvalid
      have hstart : ∀ entries, ChainPortion disk dev cluster entries →
          ∃ more, entries = clusterEntries disk dev cluster ++ more := by
        rintro _ ⟨cs, _, _, rfl⟩
        exact ⟨cs.flatMap (clusterEntries disk dev), List.flatMap_cons⟩
      have hsome : ∃ entries, ChainPortion disk dev cluster entries :=
        ⟨_, [], hvalid, List.IsChain.singleton cluster, rfl⟩
      refine Meets.bind (clusterLoop_meets hdev name hvalid (Nat.zero_add _)) ?_ ?_
      · rintro e (he | ⟨scan, he, _⟩)
        · cases he
          exact LookupLaw.failed (by decide)
        · cases he
      rintro scan (hscan | ⟨_, hscan, hsearch⟩)
      · cases hscan
      cases hscan
      cases scan with
      | found x =>
          exact Meets.pure (LookupLaw.of_found hsearch.symm hsome hstart)
      | ended =>
          exact Meets.fail (LookupLaw.of_ended hsearch.symm hstart)
      | absent =>
          have habsent : search name (clusterEntries disk dev cluster) = .absent := hsearch.symm
          -- behind this cluster the chain ends, or goes on in the cluster its entry names
          refine Meets.bind (fat16GetFatEntry_meets hdev hvalid) ?_ ?_
          · intro e he
            rw [fatEntry_error he]
            exact LookupLaw.failed (by decide)
          · intro next hnext
            split
            next heoc =>
              refine Meets.fail (LookupLaw.not_found ?_)
              intro entries entry hentries
              rcases hentries.cases hnext with rfl | ⟨more, ⟨_, hc, _⟩, _⟩
              · rw [habsent]
                nofun
              · rw [(hdev.not_mark hc).1] at heoc
                cases heoc
            split
            · exact Meets.fail (LookupLaw.failed (by decide))
            refine (ih next).mono (fun r hr => LookupLaw.of_absent habsent ?_ ?_ hr)
            · rintro _ ⟨cs, hc, hchain, rfl⟩
              exact ⟨next :: cs, hvalid, List.isChain_cons_cons.mpr ⟨⟨hnext.symm, hc⟩, hchain⟩,
                List.flatMap_cons.symm⟩
            · exact fun entries hentries => hentries.cases hnext

/-- A lookup stays inside the volume, and a search along the entries of the directory
explains its outcome. -/
theorem fat16FindEntryInDirectory_meets (hdev : Accepted dev) (start : Nat) (rootDirectory : Bool)
    (name : List UInt8) :
    Meets dev (fat16FindEntryInDirectory disk dev start rootDirectory name)
      (LookupLaw (Finds name) (Portion disk dev start rootDirectory)) := by
  unfold fat16FindEntryInDirectory
  cases rootDirectory with
  | true => exact rootLoop_meets hdev name (Nat.zero_add _)
  | false => exact chainLoop_meets hdev name dev.totalClusters start

/-! ## The law -/

/-- A loaded device has passed the checks. -/
theorem accepted_of_load {diskno : Nat} (hload : (fat16LoadBootSector disk diskno []).1 = .ok dev) :
    Accepted dev :=
  (fat16LoadBootSector_accepts disk diskno dev hload).1

/-- A request without a base, with a base of more than eight bytes, with an extension of
more than three bytes or with a second dot. -/
def MalformedName (name : List UInt8) : Prop :=
  baseOf name = [] ∨ 8 < (baseOf name).length ∨ 3 < (extOf name).length ∨ dot ∈ extOf name

theorem MalformedName.not_short {name : List UInt8} (h : MalformedName name) : ¬ShortName name := by
  rintro ⟨hbase, hlen, hext, hdot⟩
  rcases h with h | h | h | h
  · exact hbase h
  · omega
  · omega
  · exact hdot h

/-- The lookup law: on every accepted volume, whatever its chains and entries are, a
lookup returns, an entry that it returns is the first one of the directory that the
request asks for, it reports that there is none only if there is none, and a malformed
request matches no entry. -/
theorem fat16_lookup_law (disk : Ramdisk) (diskno : Nat) (dev : Device)
    (hload : (fat16LoadBootSector disk diskno []).1 = .ok dev) (start : Nat)
    (rootDirectory : Bool) (name : List UInt8) :
    LookupLaw (FirstEntry name) (Portion disk dev start rootDirectory)
      (fat16FindEntryInDirectory disk dev start rootDirectory name []).1 ∧
    (MalformedName name → ∀ entryName : List UInt8, entryName.length = fat16NameLength →
      fat16NameMatches entryName name = false) := by
  have hlaw := (@fat16FindEntryInDirectory_meets dev disk (accepted_of_load hload) start
    rootDirectory name [] nofun).2
  have hiff : ∀ entries entry, Portion disk dev start rootDirectory entries →
      (Finds name entries entry ↔ FirstEntry name entries entry) :=
    fun entries entry hentries => search_eq_found_iff name entry (fun x hx => hentries.length_name hx)
  refine ⟨?_, ?_⟩
  · exact {
      returns := hlaw.returns
      found := by
        intro entry inode hr
        obtain ⟨entries, hentries, hfinds⟩ := hlaw.found entry inode hr
        exact ⟨entries, hentries, (hiff entries entry hentries).mp hfinds⟩
      unique := by
        intro entry inode hr entries other hentries hother
        exact hlaw.unique entry inode hr entries other hentries
          ((hiff entries other hentries).mpr hother)
      absent := by
        intro hr entries entry hentries hfirst
        exact hlaw.absent hr entries entry hentries ((hiff entries entry hentries).mpr hfirst) }
  · intro hbad entryName hlen
    rw [← Bool.not_eq_true, fat16NameMatches_iff hlen]
    exact fun h => hbad.not_short h.1

/-- The boot sector of a volume of 4085 clusters of one sector each. -/
def smallBoot : List UInt8 :=
  List.replicate 11 0 ++ leBytes 2 512 ++ leBytes 1 1 ++ leBytes 2 1 ++ leBytes 1 1 ++
    leBytes 2 16 ++ leBytes 2 4103 ++ [0] ++ leBytes 2 16 ++ List.replicate 486 0 ++
    leBytes 2 0xAA55

/-- An entry for a file of 600 bytes that starts in cluster 4. -/
def smallEntry : List UInt8 :=
  [72, 69, 76, 76, 79, 32, 32, 32, 84, 88, 84, 0x20] ++ List.replicate 14 0 ++ leBytes 2 4 ++
    leBytes 4 600

/-- A volume with one file, whose clusters are 4 and 7. -/
def smallDisk : Ramdisk where
  bytes := splice (splice (splice
    (fun i => if i < 18 * 512 then 0 else UInt8.ofNat i) 0 smallBoot)
    (512 + 4 * 2) (leBytes 2 7)) (17 * 512) smallEntry
  size := 4103 * 512

def smallDevice : Device where
  diskno := 0
  boot := {
    bytesPerSector := 512
    sectorsPerCluster := 1
    reservedSectorCount := 1
    fatCount := 1
    rootEntryCount := 16
    totalSectors16 := 4103
    fatSize16 := 16
    totalSectors32 := 0
    signature := 0xAA55 }
  rootDirSectors := 1
  firstFatSector := 1
  firstRootDirSector := 17
  firstDataSector := 18
  bytesPerCluster := 512
  totalSectors := 4103
  totalClusters := 4085

theorem smallDisk_loads : (fat16LoadBootSector smallDisk 0 []).1 = .ok smallDevice := by
  decide +kernel

/-- The request {lit}`hello.txt`. -/
def helloTxt : List UInt8 :=
  [104, 101, 108, 108, 111, 46, 116, 120, 116]

theorem fat16_lookup_law_small :
    (∃ inode, (fat16FindEntryInDirectory smallDisk smallDevice 0 true helloTxt []).1 =
      .ok (decodeEntry smallEntry, inode)) ∧
    LookupLaw (FirstEntry helloTxt) (Portion smallDisk smallDevice 0 true)
      (fat16FindEntryInDirectory smallDisk smallDevice 0 true helloTxt []).1 :=
  ⟨⟨0, by decide +kernel⟩,
    (fat16_lookup_law smallDisk 0 smallDevice smallDisk_loads 0 true helloTxt).1⟩

end Fat16
end Nyxis
