import Nyxis.Fat16.Volume

/-!
# FAT16 directories

Looking up a name in a directory of {lit}`drivers/filesystem/fat16/fat16.c`.  A directory
is the root area of the volume or a chain of clusters; its sectors hold sixteen entries
each, and an entry whose name starts with a zero byte ends the directory.

Main results:

- Theorem {lit}`fat16NameMatches_iff`: when a requested name matches the name of an
  entry.
- Theorem {lit}`search_eq_found_iff`: a search ends in the first entry in front of the end
  of the directory that the request asks for.
- Theorem {lit}`fat16ScanSector_eq`: scanning a sector is a search along its entries.
-/

namespace Nyxis
namespace Fat16

open Bytes

/-! ## Names -/

/-- {lit}`fat16_toupper`. -/
def fat16Toupper (c : UInt8) : UInt8 :=
  if 97 ≤ c ∧ c ≤ 122 then c - 32 else c

def dot : UInt8 := 46
def space : UInt8 := 32

/-- The first loop of {lit}`fat16_name_matches`: copy the base of the name. -/
def baseLoop : (cursor : List UInt8) → (nameLen : Nat) → (normalized : List UInt8) →
    Option (List UInt8 × Nat × List UInt8)
  | [], nameLen, normalized => some ([], nameLen, normalized)
  | c :: cursor, nameLen, normalized =>
      if c = dot then some (c :: cursor, nameLen, normalized)
      else if nameLen ≥ 8 then none
      else baseLoop cursor (nameLen + 1) (normalized.set nameLen (fat16Toupper c))

/-- The second loop of {lit}`fat16_name_matches`: copy the extension. -/
def extLoop : (cursor : List UInt8) → (extLen : Nat) → (normalized : List UInt8) →
    Option (List UInt8)
  | [], _, normalized => some normalized
  | c :: cursor, extLen, normalized =>
      if c = dot ∨ extLen ≥ 3 then none
      else extLoop cursor (extLen + 1) (normalized.set (8 + extLen) (fat16Toupper c))

/-- The comparison at the end of {lit}`fat16_name_matches`. -/
def sameName (normalized entryName : List UInt8) : Bool :=
  (List.range fat16NameLength).all (fun i =>
    normalized.getD i 0 == fat16Toupper (entryName.getD i 0))

/-- {lit}`fat16_name_matches`. -/
def fat16NameMatches (entryName requestName : List UInt8) : Bool :=
  match baseLoop requestName 0 (List.replicate fat16NameLength space) with
  | none => false
  | some (cursor, nameLen, normalized) =>
      if nameLen = 0 then false
      else
        match cursor with
        | [] => sameName normalized entryName
        | _ :: cursor =>
            match extLoop cursor 0 normalized with
            | none => false
            | some normalized => sameName normalized entryName

/-! ## Entries -/

/-- The fields of {lit}`fat16_dir_entry_t` that the driver uses. -/
structure DirEntry where
  name : List UInt8
  attr : Nat
  firstClusterLow : Nat
  fileSize : Nat
deriving DecidableEq

def decodeEntry (bytes : List UInt8) : DirEntry where
  name := bytes.take fat16NameLength
  attr := field bytes 11 1
  firstClusterLow := field bytes 26 2
  fileSize := field bytes 28 4

def fat16AttrVolumeId : Nat := 0x08
def fat16AttrDirectory : Nat := 0x10
def fat16AttrLongName : Nat := 0x0F

/-- What a scan ends in: an entry, the end of the directory, or neither. -/
inductive Scan (α : Type)
  | found (x : α)
  | ended
  | absent
deriving DecidableEq

/-- The entry at an index of a sector. -/
def entryOf (sector : List UInt8) (j : Nat) : DirEntry :=
  decodeEntry ((sector.drop (j * fat16EntrySize)).take fat16EntrySize)

/-- The loop of {lit}`fat16_scan_sector`. -/
def scanLoop (sector name : List UInt8) : (n j : Nat) → Scan (DirEntry × Nat)
  | 0, _ => .absent
  | n + 1, j =>
      let entry := entryOf sector j
      if entry.name.getD 0 0 = 0x00 then .ended
      else if entry.name.getD 0 0 = 0xE5 then scanLoop sector name n (j + 1)
      else if entry.attr &&& fat16AttrLongName = fat16AttrLongName then
        scanLoop sector name n (j + 1)
      else if entry.attr &&& fat16AttrVolumeId ≠ 0 then scanLoop sector name n (j + 1)
      else if fat16NameMatches entry.name name then .found (entry, j)
      else scanLoop sector name n (j + 1)

/-- {lit}`fat16_scan_sector`. -/
def fat16ScanSector (sector name : List UInt8) : Scan (DirEntry × Nat) :=
  scanLoop sector name (fat16SectorSize / fat16EntrySize) 0

/-! ## Lookup -/

/-- The inode number of an entry. -/
def inodeOf (dev : Device) (place index : Nat) : Nat :=
  (dev.diskno <<< 32) ||| (place <<< 16) ||| index

/-- The loop of {lit}`fat16_find_entry_in_directory` over the root area. -/
def rootLoop (disk : Ramdisk) (dev : Device) (name : List UInt8) :
    (n i : Nat) → FatM (DirEntry × Nat)
  | 0, _ => failWith .NfileNotFound
  | n + 1, i => do
      let sector ← word 32 (dev.firstRootDirSector + i)
      let bytes ← fat16ReadSector disk .root sector
      match fat16ScanSector bytes name with
      | .found (entry, index) => pure (entry, inodeOf dev i index)
      | .ended => failWith .NfileNotFound
      | .absent => rootLoop disk dev name n (i + 1)

/-- The loop of {lit}`fat16_find_entry_in_directory` over the sectors of a cluster. -/
def clusterLoop (disk : Ramdisk) (dev : Device) (name : List UInt8) (cluster : Nat) :
    (n sectorIdx : Nat) → FatM (Scan (DirEntry × Nat))
  | 0, _ => pure .absent
  | n + 1, sectorIdx => do
      let place ← wordSub 32 cluster 2
      let place ← word 32 (place * dev.boot.sectorsPerCluster)
      let place ← word 32 (dev.firstDataSector + place)
      let sector ← word 32 (place + sectorIdx)
      let bytes ← fat16ReadSector disk (.data cluster) sector
      match fat16ScanSector bytes name with
      | .absent => clusterLoop disk dev name cluster n (sectorIdx + 1)
      | result => pure result

/-- The loop of {lit}`fat16_find_entry_in_directory` over a chain of clusters. -/
def chainLoop (disk : Ramdisk) (dev : Device) (name : List UInt8) :
    (n cluster : Nat) → FatM (DirEntry × Nat)
  | 0, _ => failWith .NfileCorrupted
  | n + 1, cluster => do
      if (← fat16ClusterValid dev cluster) = false then
        failWith .NfileCorrupted
      else
        match ← clusterLoop disk dev name cluster dev.boot.sectorsPerCluster 0 with
        | .found (entry, index) => pure (entry, inodeOf dev cluster index)
        | .ended => failWith .NfileNotFound
        | .absent =>
            let next ← fat16GetFatEntry disk dev cluster
            if fat16IsEoc next then
              failWith .NfileNotFound
            else if next = fat16ClusterBad then
              failWith .NfileCorrupted
            else
              chainLoop disk dev name n next

/-- {lit}`fat16_find_entry_in_directory`: the entry and its inode number. -/
def fat16FindEntryInDirectory (disk : Ramdisk) (dev : Device) (startCluster : Nat)
    (rootDirectory : Bool) (name : List UInt8) : FatM (DirEntry × Nat) :=
  if rootDirectory then
    rootLoop disk dev name dev.rootDirSectors 0
  else
    chainLoop disk dev name dev.totalClusters startCluster

/-! ## The names that match -/

/-- The part of a requested name in front of its first dot. -/
def baseOf (name : List UInt8) : List UInt8 :=
  name.takeWhile (fun c => c ≠ dot)

/-- The part of a requested name behind its first dot. -/
def extOf (name : List UInt8) : List UInt8 :=
  (name.dropWhile (fun c => c ≠ dot)).tail

/-- A text padded with spaces. -/
def pad (n : Nat) (text : List UInt8) : List UInt8 :=
  text ++ List.replicate (n - text.length) space

/-- A base and an extension as they stand in an entry. -/
def padded (base ext : List UInt8) : List UInt8 :=
  pad 8 base ++ pad 3 ext

theorem length_pad {n : Nat} {text : List UInt8} (h : text.length ≤ n) :
    (pad n text).length = n := by
  rw [pad, List.length_append, List.length_replicate]
  omega

/-- Writing behind a padded text makes it longer. -/
theorem set_pad {n : Nat} {text : List UInt8} (h : text.length < n) (c : UInt8) :
    (pad n text).set text.length c = pad n (text ++ [c]) := by
  obtain ⟨k, hk⟩ : ∃ k, n - text.length = k + 1 := ⟨n - text.length - 1, by omega⟩
  have hk' : n - (text ++ [c]).length = k := by
    rw [List.length_append, List.length_singleton]
    omega
  rw [pad, pad, hk, hk', List.set_append_right _ _ (Nat.le_refl _), Nat.sub_self,
    List.replicate_succ, List.set_cons_zero, List.append_assoc]
  rfl

theorem baseLoop_eq (cursor : List UInt8) {text rest : List UInt8} (htext : text.length ≤ 8) :
    baseLoop cursor text.length (pad 8 text ++ rest) =
      if text.length + (baseOf cursor).length ≤ 8 then
        some (cursor.dropWhile (fun c => c ≠ dot), text.length + (baseOf cursor).length,
          pad 8 (text ++ (baseOf cursor).map fat16Toupper) ++ rest)
      else none := by
  induction cursor generalizing text with
  | nil => simp [baseLoop, baseOf, htext]
  | cons c cursor ih =>
      rw [baseLoop]
      by_cases hdot : c = dot
      · simp [hdot, baseOf, htext]
      · rw [if_neg hdot]
        have hbase : baseOf (c :: cursor) = c :: baseOf cursor := by
          simp [baseOf, hdot]
        rw [hbase]
        by_cases hfull : text.length ≥ 8
        · rw [if_pos hfull, if_neg (by rw [List.length_cons]; omega)]
        · have hset : (pad 8 text ++ rest).set text.length (fat16Toupper c) =
              pad 8 (text ++ [fat16Toupper c]) ++ rest := by
            rw [List.set_append_left _ _ (by rw [length_pad htext]; omega),
              set_pad (by omega)]
          have hlen : text.length + 1 = (text ++ [fat16Toupper c]).length := by simp
          rw [if_neg hfull, hset, hlen, ih (by rw [← hlen]; omega)]
          have hsum : (text ++ [fat16Toupper c]).length + (baseOf cursor).length =
              text.length + (c :: baseOf cursor).length := by
            simp only [List.length_append, List.length_cons, List.length_nil]
            omega
          rw [hsum]
          simp [hdot]

theorem extLoop_eq (cursor : List UInt8) {first text : List UInt8} (hfirst : first.length = 8)
    (htext : text.length ≤ 3) :
    extLoop cursor text.length (first ++ pad 3 text) =
      if dot ∉ cursor ∧ text.length + cursor.length ≤ 3 then
        some (first ++ pad 3 (text ++ cursor.map fat16Toupper))
      else none := by
  induction cursor generalizing text with
  | nil => simp [extLoop, htext]
  | cons c cursor ih =>
      rw [extLoop]
      by_cases hstop : c = dot ∨ text.length ≥ 3
      · rw [if_pos hstop, if_neg]
        rintro ⟨hnot, hlen⟩
        rcases hstop with hdot | hfull
        · exact hnot (by simp [hdot])
        · rw [List.length_cons] at hlen
          omega
      · rw [if_neg hstop]
        rw [not_or] at hstop
        have hset : (first ++ pad 3 text).set (8 + text.length) (fat16Toupper c) =
            first ++ pad 3 (text ++ [fat16Toupper c]) := by
          rw [List.set_append_right _ _ (by omega), hfirst, Nat.add_sub_cancel_left,
            set_pad (by omega)]
        have hlen : text.length + 1 = (text ++ [fat16Toupper c]).length := by simp
        rw [hset, hlen, ih (by rw [← hlen]; omega)]
        have hcond : (dot ∉ cursor ∧ (text ++ [fat16Toupper c]).length + cursor.length ≤ 3) ↔
            (dot ∉ c :: cursor ∧ text.length + (c :: cursor).length ≤ 3) := by
          have hdot : dot ≠ c := fun heq => hstop.1 heq.symm
          simp only [List.length_append, List.length_cons, List.length_nil, List.mem_cons,
            hdot, false_or]
          constructor <;> (rintro ⟨h, h'⟩; exact ⟨h, by omega⟩)
        simp only [hcond, List.map_cons, List.append_assoc, List.singleton_append]

theorem sameName_iff {normalized entryName : List UInt8}
    (hlen : normalized.length = fat16NameLength) (hname : entryName.length = fat16NameLength) :
    sameName normalized entryName = true ↔ entryName.map fat16Toupper = normalized := by
  rw [sameName, List.all_eq_true]
  constructor
  · intro h
    refine List.ext_getElem? (fun i => ?_)
    by_cases hi : i < fat16NameLength
    · have hsame := h i (List.mem_range.mpr hi)
      rw [beq_iff_eq] at hsame
      rw [List.getElem?_map, List.getElem?_eq_getElem (by omega),
        List.getElem?_eq_getElem (by omega)]
      rw [List.getD_eq_getElem?_getD, List.getD_eq_getElem?_getD,
        List.getElem?_eq_getElem (by omega), List.getElem?_eq_getElem (by omega)] at hsame
      exact congrArg some hsame.symm
    · rw [List.getElem?_eq_none (by rw [List.length_map]; omega),
        List.getElem?_eq_none (by omega)]
  · intro h i hi
    rw [List.mem_range] at hi
    rw [beq_iff_eq, ← h, List.getD_eq_getElem?_getD, List.getElem?_map,
      List.getElem?_eq_getElem (by omega), List.getD_eq_getElem?_getD,
      List.getElem?_eq_getElem (by omega)]
    rfl

theorem map_toupper_pad (n : Nat) (text : List UInt8) :
    (pad n text).map fat16Toupper = pad n (text.map fat16Toupper) := by
  rw [pad, pad, List.map_append, List.map_replicate, List.length_map]
  rfl

/-- A requested name that can stand in an entry. -/
structure ShortName (name : List UInt8) : Prop where
  base_ne : baseOf name ≠ []
  base_le : (baseOf name).length ≤ 8
  ext_le : (extOf name).length ≤ 3
  one_dot : dot ∉ extOf name

/-- A requested name matches an entry exactly if it is a short name and the entry holds
its padded base and extension, up to case. -/
theorem fat16NameMatches_iff {entryName : List UInt8} (hname : entryName.length = fat16NameLength)
    (name : List UInt8) :
    fat16NameMatches entryName name = true ↔ ShortName name ∧
      entryName.map fat16Toupper = (padded (baseOf name) (extOf name)).map fat16Toupper := by
  have hstart : List.replicate fat16NameLength space = pad 8 [] ++ pad 3 [] := by decide
  have hup : (padded (baseOf name) (extOf name)).map fat16Toupper =
      pad 8 ((baseOf name).map fat16Toupper) ++ pad 3 ((extOf name).map fat16Toupper) := by
    rw [padded, List.map_append, map_toupper_pad, map_toupper_pad]
  have hloop := @baseLoop_eq name [] (pad 3 []) (by simp)
  simp only [List.length_nil, Nat.zero_add, List.nil_append] at hloop
  unfold fat16NameMatches
  rw [hup, hstart, hloop]
  by_cases hbase : (baseOf name).length ≤ 8
  swap
  · rw [if_neg hbase]
    exact ⟨nofun, fun h => absurd h.1.base_le hbase⟩
  rw [if_pos hbase]
  dsimp only
  have hfirst : (pad 8 ((baseOf name).map fat16Toupper)).length = 8 :=
    length_pad (by rw [List.length_map]; exact hbase)
  by_cases hempty : baseOf name = []
  · rw [if_pos (by rw [hempty]; rfl)]
    exact ⟨nofun, fun h => absurd hempty h.1.base_ne⟩
  rw [if_neg (fun hcon => hempty (List.eq_nil_of_length_eq_zero hcon))]
  cases hrest : name.dropWhile (fun c => c ≠ dot) with
  | nil =>
      have hext : extOf name = [] := by rw [extOf, hrest]; rfl
      simp only [hext, List.map_nil]
      rw [sameName_iff (by rw [List.length_append, hfirst, length_pad (by simp)]; rfl) hname]
      refine ⟨fun h => ⟨⟨hempty, hbase, by simp [hext], by simp [hext]⟩, h⟩, fun h => h.2⟩
  | cons c ext =>
      have hext : extOf name = ext := by rw [extOf, hrest]; rfl
      have hcopy := @extLoop_eq ext _ [] hfirst (by simp)
      simp only [List.length_nil, Nat.zero_add, List.nil_append] at hcopy
      simp only [hext]
      rw [hcopy]
      by_cases hok : dot ∉ ext ∧ ext.length ≤ 3
      · rw [if_pos hok]
        dsimp only
        rw [sameName_iff ?_ hname]
        · refine ⟨fun h => ⟨⟨hempty, hbase, by rw [hext]; exact hok.2, by rw [hext]; exact hok.1⟩,
            h⟩, fun h => h.2⟩
        · rw [List.length_append, hfirst, length_pad (by rw [List.length_map]; exact hok.2)]
          rfl
      · rw [if_neg hok]
        refine ⟨nofun, fun h => absurd ⟨?_, ?_⟩ hok⟩
        · rw [← hext]
          exact h.1.one_dot
        · rw [← hext]
          exact h.1.ext_le

/-! ## The entries of a directory -/

/-- The directory goes on behind an entry whose name does not start with zero. -/
def DirEntry.used (entry : DirEntry) : Bool :=
  entry.name.getD 0 0 != 0x00

/-- The tests of the loop on an entry that does not end the directory. -/
def DirEntry.wanted (name : List UInt8) (entry : DirEntry) : Bool :=
  entry.name.getD 0 0 != 0xE5 && entry.attr &&& fat16AttrLongName != fat16AttrLongName &&
    entry.attr &&& fat16AttrVolumeId == 0 && fat16NameMatches entry.name name

theorem DirEntry.wanted_iff (name : List UInt8) (entry : DirEntry) :
    entry.wanted name = true ↔ entry.name.getD 0 0 ≠ 0xE5 ∧
      entry.attr &&& fat16AttrLongName ≠ fat16AttrLongName ∧
      entry.attr &&& fat16AttrVolumeId = 0 ∧ fat16NameMatches entry.name name = true := by
  rw [DirEntry.wanted, Bool.and_eq_true, Bool.and_eq_true, Bool.and_eq_true, bne_iff_ne,
    bne_iff_ne, beq_iff_eq, and_assoc, and_assoc]

/-- The entry that a request asks for: it is not deleted, neither part of a long name
nor a volume label, and its name is that of the request. -/
structure Answers (name : List UInt8) (entry : DirEntry) : Prop where
  kept : entry.name.getD 0 0 ≠ 0xE5
  not_long : entry.attr &&& fat16AttrLongName ≠ fat16AttrLongName
  not_label : entry.attr &&& fat16AttrVolumeId = 0
  short : ShortName name
  named : entry.name.map fat16Toupper = (padded (baseOf name) (extOf name)).map fat16Toupper

theorem DirEntry.wanted_iff_answers (name : List UInt8) {entry : DirEntry}
    (hlen : entry.name.length = fat16NameLength) :
    entry.wanted name = true ↔ Answers name entry := by
  rw [entry.wanted_iff, fat16NameMatches_iff hlen]
  constructor
  · rintro ⟨hkept, hlong, hlabel, hshort, hnamed⟩
    exact ⟨hkept, hlong, hlabel, hshort, hnamed⟩
  · rintro ⟨hkept, hlong, hlabel, hshort, hnamed⟩
    exact ⟨hkept, hlong, hlabel, hshort, hnamed⟩

/-- The first entry in front of the end of a directory that a request asks for: the
directory is used up to it, and no entry in front of it answers. -/
def FirstEntry (name : List UInt8) (entries : List DirEntry) (entry : DirEntry) : Prop :=
  ∃ before after, entries = before ++ entry :: after ∧ entry.used = true ∧ Answers name entry ∧
    ∀ x ∈ before, x.used = true ∧ ¬Answers name x

/-- A search along entries. -/
def search (name : List UInt8) : List DirEntry → Scan DirEntry
  | [] => .absent
  | entry :: entries =>
      if entry.used = false then .ended
      else if entry.wanted name then .found entry
      else search name entries

theorem search_append (name : List UInt8) (entries entries' : List DirEntry) :
    search name (entries ++ entries') =
      match search name entries with
      | .absent => search name entries'
      | r => r := by
  induction entries with
  | nil => rfl
  | cons entry entries ih =>
      rw [List.cons_append, search, search]
      split
      · rfl
      split
      · rfl
      · exact ih

theorem search_eq_found_iff (name : List UInt8) {entries : List DirEntry} (entry : DirEntry)
    (hlen : ∀ x ∈ entries, x.name.length = fat16NameLength) :
    search name entries = .found entry ↔ FirstEntry name entries entry := by
  induction entries with
  | nil =>
      refine ⟨nofun, ?_⟩
      rintro ⟨before, after, hsplit, _⟩
      simp at hsplit
  | cons x entries ih =>
      have hx := DirEntry.wanted_iff_answers name (hlen x (List.mem_cons_self ..))
      rw [search]
      constructor
      · intro hfound
        split at hfound
        · cases hfound
        next hused =>
        rw [Bool.not_eq_false] at hused
        split at hfound
        next hwanted =>
          cases hfound
          exact ⟨[], entries, rfl, hused, hx.mp hwanted, nofun⟩
        next hwanted =>
          obtain ⟨before, after, hsplit, hentry, hanswers, hbefore⟩ :=
            (ih (fun y hy => hlen y (List.mem_cons_of_mem _ hy))).mp hfound
          refine ⟨x :: before, after, by rw [hsplit, List.cons_append], hentry, hanswers, ?_⟩
          intro y hy
          rcases List.mem_cons.mp hy with rfl | hy
          · exact ⟨hused, fun hcon => hwanted (hx.mpr hcon)⟩
          · exact hbefore y hy
      · rintro ⟨before, after, hsplit, hentry, hanswers, hbefore⟩
        cases before with
        | nil =>
            obtain ⟨rfl, rfl⟩ := List.cons.inj hsplit
            rw [if_neg (by simp [hentry]), if_pos (hx.mpr hanswers)]
        | cons y before =>
            obtain ⟨rfl, hrest⟩ := List.cons.inj hsplit
            obtain ⟨hused, hnot⟩ := hbefore x (List.mem_cons_self ..)
            rw [if_neg (by simp [hused]), if_neg (fun hcon => hnot (hx.mp hcon))]
            refine (ih (fun z hz => hlen z (List.mem_cons_of_mem _ hz))).mpr ?_
            exact ⟨before, after, hrest, hentry, hanswers,
              fun z hz => hbefore z (List.mem_cons_of_mem _ hz)⟩

/-- The entries of a sector. -/
def sectorEntries (sector : List UInt8) : List DirEntry :=
  (List.range (fat16SectorSize / fat16EntrySize)).map (entryOf sector)

/-- Keep the entry of a scan only. -/
def Scan.entry : Scan (DirEntry × Nat) → Scan DirEntry
  | .found (entry, _) => .found entry
  | .ended => .ended
  | .absent => .absent

theorem scanLoop_eq (sector name : List UInt8) (n j : Nat) :
    (scanLoop sector name n j).entry =
      search name ((List.range' j n).map (entryOf sector)) := by
  induction n generalizing j with
  | zero => rfl
  | succ n ih =>
      rw [List.range'_succ, List.map_cons, search]
      unfold scanLoop
      obtain ⟨entry, hentry⟩ : ∃ entry, entry = entryOf sector j := ⟨_, rfl⟩
      rw [← hentry]
      by_cases hend : entry.name.getD 0 0 = 0x00
      · have hused : entry.used = false := bne_eq_false_iff_eq.mpr hend
        rw [if_pos hend, if_pos hused]
        rfl
      have hused : ¬entry.used = false := by
        rw [Bool.not_eq_false]
        exact bne_iff_ne.mpr hend
      rw [if_neg hend, if_neg hused]
      by_cases hwanted : entry.wanted name = true
      · obtain ⟨hdel, hlong, hvol, hname⟩ := (entry.wanted_iff name).mp hwanted
        rw [if_neg hdel, if_neg hlong, if_neg (fun h => h hvol), if_pos hname, if_pos hwanted]
        rfl
      · rw [if_neg hwanted, ← ih]
        split
        · rfl
        next hdel =>
        split
        · rfl
        next hlong =>
        split
        · rfl
        next hvol =>
        split
        next hname =>
          exact absurd ((entry.wanted_iff name).mpr
            ⟨hdel, hlong, Decidable.not_not.mp hvol, hname⟩) hwanted
        · rfl

/-- Scanning a sector searches its entries. -/
theorem fat16ScanSector_eq (sector name : List UInt8) :
    (fat16ScanSector sector name).entry = search name (sectorEntries sector) := by
  rw [fat16ScanSector, scanLoop_eq, sectorEntries, List.range_eq_range']

end Fat16
end Nyxis
