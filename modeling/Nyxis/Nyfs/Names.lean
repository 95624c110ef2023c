import Mathlib.Data.Finmap
import Nyxis.Nyfs.Runs

/-!
# Directories as finite maps

A directory's hash table stands for a finite map from names to inode numbers and types.  The run of
a table starts with {lit}`nyfs_dirhash_create` on a volume that requests reach and goes on with
insertions of new names, removals and lookups; the map follows its calls.

Main results:

- Theorem {lit}`NameMap.Stored.insert`, {lit}`NameMap.Stored.remove`: what one call does to the map.
- Theorem {lit}`MapRun.stored`: whole runs.
- Theorem {lit}`directories_refine_maps`: lookups, counters and listings show the map.
-/

namespace Nyxis
namespace Nyfs

open Bitmap Vfs

variable {D : Type} [ReliableDevice D] {L : Layout} {V V' : View} {nodes : Nat → Node}
variable {v v' : Volume D} {p : MkfsParams} {d : D} {i : Nat}

/-! ## Maps -/

/-- Names with the inode number and the type that they stand for. -/
abbrev NameMap : Type :=
  Finmap (fun _ : List UInt8 => Nat × Nat)

/-- The table of a directory inode, on the disk and in its node, holds a map. -/
structure NameMap.Stored (m : NameMap) (L : Layout) (V : View) (dir : Inode) (n : Node) : Prop where
  ready : Ready L V
  table : Dir L V dir.dirHashRoot n.table n.buckets n.free
  set : ∀ b ∈ chainBlocks n.table, V.blockBit b = true
  count : dir.dirEntryCount = n.records.length
  find : ∀ name, m.lookup name = n.find name

variable {m : NameMap} {dir dir' : Inode} {n : Node}

/-- The records of a table make a map. -/
theorem exists_nameMap (n : Node) : ∃ m : NameMap, ∀ name, m.lookup name = n.find name := by
  refine ⟨(n.records.map (fun r => (⟨r.name, (r.ino, r.type)⟩ : Sigma fun _ => Nat × Nat))).toFinmap,
    fun name => ?_⟩
  rw [Finmap.dlookup_list_toFinmap]
  have hlookup : ∀ rs : List Record,
      (rs.map (fun r => (⟨r.name, (r.ino, r.type)⟩ : Sigma fun _ => Nat × Nat))).dlookup name =
        (rs.find? (fun r => r.name = name)).map (fun r => (r.ino, r.type)) := by
    intro rs
    induction rs with
    | nil => rfl
    | cons r rs ih =>
        by_cases hname : r.name = name
        · subst hname
          rw [List.map_cons, List.dlookup_cons_eq, List.find?_cons_of_pos (by simp)]
          rfl
        · rw [List.map_cons, List.dlookup_cons_ne _ _ (fun heq => hname heq.symm), ih,
            List.find?_cons_of_neg (by simpa using hname)]
  exact hlookup n.records

/-- The size of the map is the number of the records. -/
theorem NameMap.Stored.card_eq (h : m.Stored L V dir n) : m.keys.card = n.records.length := by
  have hkeys : m.keys = (n.records.map Record.name).toFinset := by
    ext name
    rw [Finmap.mem_keys, Finmap.mem_iff, List.mem_toFinset, List.mem_map]
    constructor
    · rintro ⟨b, hb⟩
      rw [h.find, Node.find] at hb
      obtain ⟨r, hr, -⟩ := Option.map_eq_some_iff.mp hb
      exact ⟨r, h.table.table.recordOf_eq_some.mp hr⟩
    · rintro ⟨r, hr⟩
      refine ⟨(r.ino, r.type), ?_⟩
      rw [h.find, Node.find, h.table.table.recordOf_eq_some.mpr hr]
      rfl
  rw [hkeys, List.toFinset_card_of_nodup (show (n.records.map Record.name).Nodup from
    h.table.table.names), List.length_map]

theorem NameMap.Stored.notMem_iff (h : m.Stored L V dir n) {name : List UInt8} :
    name ∉ m ↔ recordOf n.buckets name = none := by
  rw [← Finmap.lookup_eq_none, h.find, Node.find, Option.map_eq_none_iff]

/-! ## One call -/

section Calls

variable (hL : L.Valid)
include hL

/-- A new table holds the empty map and has room in its block. -/
theorem Ready.stores_empty (hR : Ready L V) (dir : Inode) :
    ∃ res dir' V', Does L V (Nyfs.dirhashCreate dir : NyfsM D _) (.ok (res, dir')) V' ∧
      ((res = .ok () ∧ ∃ n, NameMap.Stored ∅ L V' dir' n ∧ n.free = 160 ∧
          capacity L n.table = L.blockSize) ∨
        (res = .error .NdiskFull ∧ planOne L V.blockBit none = none)) := by
  obtain ⟨res, dir', segs', V', taken, hdoes, hlong, hout⟩ := hR.dirhashCreate (D := D) hL dir
  refine ⟨res, dir', V', hdoes, ?_⟩
  rcases hout with ⟨hok, hdir', htable, b, ls, t, -, hdata, -⟩ | ⟨hfull, -, hplan⟩
  · refine Or.inl ⟨hok, ⟨[], segs', fun _ => [], 160, []⟩, ⟨hlong.takes.ready, htable, hlong.set nofun,
      ?_, fun name => ?_⟩, rfl, ?_⟩
    · rw [hdir']
      rfl
    · rw [Finmap.lookup_empty]
      rfl
    · rw [capacity, hdata, List.length_singleton, Nat.one_mul]
  · exact Or.inr ⟨hfull, hplan⟩

/-- An insertion adds the name to the map, or the disk is full and the map is the same. -/
theorem NameMap.Stored.insert (h : m.Stored L V dir n) {name : List UInt8} (hname : NameOk name)
    (hfresh : name ∉ m) {ino type : Nat} (hino : ino < 2 ^ 64) (htype : type < 256) :
    ∃ res dir' V' n', Does L V (dirhashInsert dir name ino type : NyfsM D _) (.ok (res, dir')) V' ∧
      ((res = .ok () ∧ NameMap.Stored (Finmap.insert name (ino, type) m) L V' dir' n') ∨
        (res = .error .NdiskFull ∧ m.Stored L V' dir' n' ∧ ¬n.HasRoom L V name)) := by
  have hrecord := h.notMem_iff.mp hfresh
  obtain ⟨res, dir', segs', buckets', free', V', taken, hdoes, hins⟩ :=
    h.table.insert (D := D) hL h.ready h.set hname hrecord hino htype
  refine ⟨res, dir', V', { n with table := segs', buckets := buckets', free := free' }, hdoes, ?_⟩
  have hready := hins.long.takes.ready
  have hset := hins.long.set h.set
  have hholds := hins.holds
  rcases hins.outcome with ⟨rfl, rfl, rfl, -⟩ | ⟨rfl, rfl, rfl, rfl, rfl, rfl, hlt, hplan⟩
  · have hb : nyfsHashName name % nyfsDirhashDefaultBuckets < nyfsDirhashDefaultBuckets :=
      Nat.mod_lt _ (by decide)
    have hperm := entries_insert_perm n.buckets hb ⟨n.free, name, ino, type⟩
    refine Or.inl ⟨rfl, hready, hholds, hset, hperm.length_eq.symm, fun other => ?_⟩
    have hfind := @Node.find_of_perm n { n with
        table := segs'
        buckets := Function.update n.buckets (nyfsHashName name % nyfsDirhashDefaultBuckets)
          (⟨n.free, name, ino, type⟩ ::
            n.buckets (nyfsHashName name % nyfsDirhashDefaultBuckets))
        free := free' } ⟨n.free, name, ino, type⟩ hholds.table.names hperm
    refine Eq.trans ?_ (congrFun hfind other).symm
    by_cases hother : other = name
    · subst hother
      rw [Finmap.lookup_insert, Function.update_self]
    · rw [Finmap.lookup_insert_of_ne m hother, Function.update_of_ne hother, h.find]
  · refine Or.inr ⟨rfl, ⟨hready, hholds, hset, h.count, h.find⟩, ?_⟩
    rintro (hroom | hroom)
    · exact absurd hlt (Nat.not_lt.mpr hroom)
    · exact hroom hplan

/-- A removal takes the name out of the map, or the name is not there. -/
theorem NameMap.Stored.remove (h : m.Stored L V dir n) {name : List UInt8} (hname : NameOk name) :
    ∃ dir' V' n', Does L V (dirhashRemove dir name : NyfsM D _)
        (.ok (if name ∈ m then .ok () else .error .NnotFound, dir')) V' ∧
      (if name ∈ m then NameMap.Stored (m.erase name) L V' dir' n' else m.Stored L V' dir' n') := by
  by_cases hmem : name ∈ m
  · obtain ⟨b, hb⟩ := Finmap.mem_iff.mp hmem
    rw [h.find, Node.find] at hb
    obtain ⟨r, hr, -⟩ := Option.map_eq_some_iff.mp hb
    obtain ⟨-, rfl⟩ := h.table.table.recordOf_eq_some.mp hr
    obtain ⟨pre, post, V', hbucket, hdoes, hdir', htakes⟩ := h.table.remove (D := D) hL h.ready hname hr
    refine ⟨{ dir with dirEntryCount := (entries n.buckets).length - 1 }, V', { n with
      buckets := Function.update n.buckets (nyfsHashName r.name % nyfsDirhashDefaultBuckets)
        (pre ++ post) }, ?_, ?_⟩
    · rw [if_pos hmem]
      exact hdoes
    · rw [if_pos hmem]
      have hslot : nyfsHashName r.name % nyfsDirhashDefaultBuckets < nyfsDirhashDefaultBuckets :=
        Nat.mod_lt _ (by decide)
      have hperm := entries_remove_perm n.buckets hslot hbucket
      refine ⟨htakes.ready, hdir', fun b hb => htakes.blockBit_of_set (h.set b hb), ?_,
        fun other => ?_⟩
      · change (entries n.buckets).length - 1 = _
        rw [hperm.length_eq, List.length_cons, Nat.add_sub_cancel]
        rfl
      · have hfind := @Node.find_of_perm_erase n { n with
            buckets := Function.update n.buckets (nyfsHashName r.name % nyfsDirhashDefaultBuckets)
              (pre ++ post) } r
          h.table.table.names hperm
        refine Eq.trans ?_ (congrFun hfind other).symm
        by_cases hother : other = r.name
        · subst hother
          rw [Finmap.lookup_erase, Function.update_self]
        · rw [Finmap.lookup_erase_ne hother, Function.update_of_ne hother, h.find]
  · refine ⟨dir, V, n, ?_, ?_⟩
    · rw [if_neg hmem]
      exact h.table.remove_absent hL hname (h.notMem_iff.mp hmem)
    · rw [if_neg hmem]
      exact h

end Calls

/-! ## What the calls show -/

/-- A list of all bindings of a map, each once. -/
structure NameMap.Lists (m : NameMap) (views : List DirentView) : Prop where
  nodup : (views.map DirentView.name).Nodup
  mem : ∀ name ino type, ⟨name, ino, type⟩ ∈ views ↔ m.lookup name = some (ino, type)
  length : views.length = m.keys.card
  names : ∀ view ∈ views, view.name.length ≤ nyfsNameMax

/-- A record with its name cut. -/
def DirentView.cut (nameLimit : Nat) (view : DirentView) : DirentView :=
  { view with name := view.name.take nameLimit }

theorem NameMap.Lists.cut_eq {views : List DirentView} (h : m.Lists views) (index : Nat) :
    (views[index]?).map (DirentView.cut nyfsNameMax) = views[index]? := by
  cases hview : views[index]? with
  | none => rfl
  | some view =>
      have hlen := h.names view (List.mem_of_getElem? hview)
      rw [Option.map_some, DirentView.cut, List.take_of_length_le hlen]

/-- The listing of a table. -/
theorem NameMap.Stored.lists (h : m.Stored L V dir n) :
    m.Lists (n.records.map (Record.view nyfsNameMax)) := by
  have hview : ∀ r ∈ n.records, r.view nyfsNameMax = ⟨r.name, r.ino, r.type⟩ := by
    intro r hr
    rw [Record.view, List.take_of_length_le (h.table.table.valid r hr).name_le]
  have hnames : (n.records.map (Record.view nyfsNameMax)).map DirentView.name =
      n.records.map Record.name := by
    rw [List.map_map]
    refine List.map_congr_left (fun r hr => ?_)
    rw [Function.comp_apply, hview r hr]
  refine ⟨?_, fun name ino type => ?_, ?_, ?_⟩
  · rw [hnames]
    exact h.table.table.names
  · rw [h.find, Node.find, List.mem_map, Option.map_eq_some_iff]
    constructor
    · rintro ⟨r, hr, heq⟩
      rw [hview r hr] at heq
      cases heq
      exact ⟨r, h.table.table.recordOf_eq_some.mpr ⟨hr, rfl⟩, rfl⟩
    · rintro ⟨r, hr, heq⟩
      obtain ⟨hmem, rfl⟩ := h.table.table.recordOf_eq_some.mp hr
      cases heq
      exact ⟨r, hmem, hview r hmem⟩
  · rw [List.length_map, h.card_eq]
  · intro view hmem
    obtain ⟨r, hr, rfl⟩ := List.mem_map.mp hmem
    rw [hview r hr]
    exact (h.table.table.valid r hr).name_le

/-- A listing by index. -/
theorem NameMap.Stored.does_readdir (hL : L.Valid) (h : m.Stored L V dir n) (index nameLimit : Nat) :
    Does L V (dirhashReaddir dir index nameLimit : NyfsM D _)
      (foundOr (((n.records.map (Record.view nyfsNameMax))[index]?).map (DirentView.cut nameLimit)))
      V := by
  have hread := h.table.readdir (D := D) hL index nameLimit
  have hcut : ((entries n.buckets)[index]?).map (Record.view nameLimit) =
      ((n.records.map (Record.view nyfsNameMax))[index]?).map (DirentView.cut nameLimit) := by
    rw [List.getElem?_map, Option.map_map]
    change (n.records[index]?).map (Record.view nameLimit) = _
    cases hr : n.records[index]? with
    | none => rfl
    | some r =>
        have hle := (h.table.table.valid r (List.mem_of_getElem? hr)).name_le
        rw [Option.map_some, Option.map_some, Function.comp_apply, DirentView.cut, Record.view,
          Record.view, List.take_of_length_le hle]
  rw [hcut] at hread
  exact hread

/-- The calls on a table answer for a map. -/
structure NameMap.Answers (m : NameMap) (v : Volume D) (dir : Inode) : Prop where
  lookup : ∀ name, NameOk name → (dirhashLookup dir name v).1 = foundOr (m.lookup name)
  insert : ∀ name ino type, NameOk name → name ∉ m → ino < 2 ^ 64 → type < 256 →
    ∃ res dir' v', dirhashInsert dir name ino type v = (.ok (res, dir'), v') ∧
      (res = .ok () ∨ res = .error .NdiskFull)
  remove : ∀ name, NameOk name → ∃ dir' v', dirhashRemove dir name v =
    (.ok (if name ∈ m then .ok () else .error .NnotFound, dir'), v')
  header : ∃ hdr, (dirhashHeader dir.dirHashRoot v).1 = .ok hdr ∧ hdr.entryCount = m.keys.card
  entryCount : dir.dirEntryCount = m.keys.card
  readdir : ∃ views, m.Lists views ∧ ∀ index nameLimit, (dirhashReaddir dir index nameLimit v).1 =
    foundOr ((views[index]?).map (DirentView.cut nameLimit))

theorem NameMap.Stored.answers (hL : L.Valid) (hv : Mounted L v) (h : m.Stored L v.view dir n) :
    m.Answers v dir := by
  refine ⟨fun name hname => ?_, fun name ino type hname hfresh hino htype => ?_,
    fun name hname => ?_, ?_, ?_, _, h.lists, fun index nameLimit => ?_⟩
  · obtain ⟨v', hrun, -⟩ := (h.table.lookup (D := D) hL hname).run hL hv rfl
    rw [hrun, h.find]
    rfl
  · obtain ⟨res, dir', V', n', hdoes, hout⟩ := h.insert (D := D) hL hname hfresh hino htype
    obtain ⟨v', hrun, -⟩ := hdoes.run hL hv rfl
    exact ⟨res, dir', v', hrun, hout.imp (fun hok => hok.1) (fun hfull => hfull.1)⟩
  · obtain ⟨dir', V', n', hdoes, -⟩ := h.remove (D := D) hL hname
    obtain ⟨v', hrun, -⟩ := hdoes.run hL hv rfl
    exact ⟨dir', v', hrun⟩
  · obtain ⟨v', hrun, -⟩ := (h.table.does_header (D := D) hL).run hL hv rfl
    rw [hrun, h.card_eq]
    exact ⟨_, rfl, rfl⟩
  · rw [h.card_eq]
    exact h.count
  · obtain ⟨v', hrun, -⟩ := (h.does_readdir (D := D) hL index nameLimit).run hL hv rfl
    rw [hrun]

/-! ## Runs -/

/-- The map after a call that changes it to the given one if it succeeds. -/
def NameMap.after (m changed : NameMap) : Except Nstatus Unit → NameMap
  | .ok () => changed
  | .error _ => m

/-- The runs of a table and the maps that follow them: {lit}`nyfs_dirhash_create` on a volume that
requests reach, then insertions of names that are not there, removals and lookups.  A call that
fails leaves the map.  The types are those that the byte of a record can hold. -/
inductive MapRun (p : MkfsParams) (d : D) : Volume D → Inode → NameMap → Prop
  | created {v v' : Volume D} {dir dir' : Inode} (h : Reachable anyRequest p d v)
      (hrun : dirhashCreate dir v = (.ok (.ok (), dir'), v')) : MapRun p d v' dir' ∅
  | inserted {v v' : Volume D} {dir dir' : Inode} {m : NameMap} {name : List UInt8} {ino type : Nat}
      {res : Except Nstatus Unit} (h : MapRun p d v dir m) (hname : NameOk name) (hfresh : name ∉ m)
      (hino : ino < 2 ^ 64) (htype : type < 256)
      (hrun : dirhashInsert dir name ino type v = (.ok (res, dir'), v')) :
      MapRun p d v' dir' (m.after (Finmap.insert name (ino, type) m) res)
  | removed {v v' : Volume D} {dir dir' : Inode} {m : NameMap} {name : List UInt8}
      {res : Except Nstatus Unit} (h : MapRun p d v dir m) (hname : NameOk name)
      (hrun : dirhashRemove dir name v = (.ok (res, dir'), v')) :
      MapRun p d v' dir' (m.after (m.erase name) res)
  | lookedUp {v : Volume D} {dir : Inode} {m : NameMap} (h : MapRun p d v dir m)
      {name : List UInt8} (hname : NameOk name) : MapRun p d (dirhashLookup dir name v).2 dir m

/-- The table holds the map after every run. -/
theorem MapRun.stored (hsmall : p.Small) (h : MapRun p d v dir m) :
    p.layout.Valid ∧ Mounted p.layout v ∧ ∃ n, m.Stored p.layout v.view dir n := by
  induction h with
  | @created v v' dir dir' hreach hrun =>
      obtain ⟨nodes, hsound⟩ := hreach.inventory hsmall
      obtain ⟨res, dir₁, V', hdoes, hout⟩ :=
        hsound.inventory.ready.stores_empty (D := D) hsound.valid dir
      obtain ⟨v₁, hrun', hmounted, rfl, -⟩ := hdoes.run hsound.valid hsound.mounted rfl
      rw [hrun] at hrun'
      cases hrun'
      rcases hout with ⟨-, n, hstored, -⟩ | ⟨hfull, -⟩
      · exact ⟨hsound.valid, hmounted, n, hstored⟩
      · cases hfull
  | @inserted v v' dir dir' m name ino type res _ hname hfresh hino htype hrun ih =>
      obtain ⟨hL, hv, n, hstored⟩ := ih
      obtain ⟨res₁, dir₁, V', n', hdoes, hout⟩ := hstored.insert (D := D) hL hname hfresh hino htype
      obtain ⟨v₁, hrun', hmounted, rfl, -⟩ := hdoes.run hL hv rfl
      rw [hrun] at hrun'
      cases hrun'
      refine ⟨hL, hmounted, n', ?_⟩
      rcases hout with ⟨rfl, hnew⟩ | ⟨rfl, hsame, -⟩
      · exact hnew
      · exact hsame
  | @removed v v' dir dir' m name res _ hname hrun ih =>
      obtain ⟨hL, hv, n, hstored⟩ := ih
      obtain ⟨dir₁, V', n', hdoes, hout⟩ := hstored.remove (D := D) hL hname
      obtain ⟨v₁, hrun', hmounted, rfl, -⟩ := hdoes.run hL hv rfl
      rw [hrun] at hrun'
      cases hrun'
      refine ⟨hL, hmounted, n', ?_⟩
      by_cases hmem : name ∈ m
      · rw [if_pos hmem] at hout ⊢
        exact hout
      · rw [if_neg hmem] at hout ⊢
        exact hout
  | @lookedUp v dir m _ name hname ih =>
      obtain ⟨hL, hv, n, hstored⟩ := ih
      obtain ⟨v₁, hrun, hmounted, hview, -⟩ := (hstored.table.lookup (D := D) hL hname).run hL hv rfl
      rw [hrun]
      refine ⟨hL, hmounted, n, ?_⟩
      rw [hview]
      exact hstored

omit [ReliableDevice D] in
/-- A directory of an inventory holds a map. -/
theorem Inventory.stored (h : Inventory L V nodes) (hi : Live L V i)
    (htype : (V.inode i).type = nyfsInoTypeDir) :
    ∃ m : NameMap, m.Stored L V (V.inode i) (nodes i) := by
  obtain ⟨hdir, hcount⟩ := (h.holds i hi).dir htype
  obtain ⟨m, hm⟩ := exists_nameMap (nodes i)
  exact ⟨m, h.ready, hdir, fun b hb => h.set i hi b (List.mem_append_right _ hb), hcount, hm⟩

theorem Sound.stored (h : Sound L v nodes) (hi : Live L v.view i)
    (htype : (v.view.inode i).type = nyfsInoTypeDir) :
    ∃ m : NameMap, m.Stored L v.view (v.view.inode i) (nodes i) :=
  h.inventory.stored hi htype

/-- A directory is listed from its map. -/
theorem Sound.readdirNode {cred : Cred} (h : Sound L v nodes) (hi : Live L v.view i)
    (htype : (v.view.inode i).type = nyfsInoTypeDir)
    (hgrants : Grants v.view (v.view.inode i) cred nyfsAceReadData)
    (hm : m.Stored L v.view (v.view.inode i) (nodes i)) (index nameLimit : Nat) :
    (Nyfs.readdirNode i cred index nameLimit v).1 =
      foundOr ((((nodes i).records.map (Record.view nyfsNameMax))[index]?).map
        (DirentView.cut nameLimit)) := by
  have hread := h.inventory.toOwned.does_readDirInode (D := D) h.valid hi
  rw [if_neg (not_not.mpr htype)] at hread
  have haccess := (h.inventory.holds i hi).does_checkAccess (D := D) h.valid cred nyfsAceReadData
  rw [if_pos hgrants] at haccess
  have hlist := hm.does_readdir (D := D) h.valid index nameLimit
  have hdoes : Does L v.view (Nyfs.readdirNode i cred index nameLimit : NyfsM D _)
      (foundOr ((((nodes i).records.map (Record.view nyfsNameMax))[index]?).map
        (DirentView.cut nameLimit))) v.view :=
    hread.bind (haccess.bind hlist)
  obtain ⟨v', hrun, -⟩ := hdoes.run h.valid h.mounted rfl
  rw [hrun]

/-- A listing through the kernel is the listing of the volume. -/
theorem nyfsReaddir_eq {s : Drivers (NyfsState D)} {a vol index nameOutMax : Nat}
    (ha : VnodeOf s a vol i) (hmax : nameOutMax ≠ 0) :
    (nyfsReaddir a index nameOutMax s).1 =
      ((readdirNode i s.fs.cred index (nameOutMax - 1) (s.fs.volumes vol)).1).map
        (fun view => (view.name, view.type)) := by
  have hstart : nyfsReaddir a index nameOutMax s =
      (onVolume vol (readdirNode i s.fs.cred index (nameOutMax - 1)) >>= fun view =>
        pure (view.name, view.type)) s := by
    rw [nyfsReaddir, if_neg hmax, Eff.bind_ok ha.run]
    rfl
  rw [hstart]
  cases hrun : readdirNode i s.fs.cred index (nameOutMax - 1) (s.fs.volumes vol) with
  | mk r w =>
      have hon : onVolume vol (readdirNode i s.fs.cred index (nameOutMax - 1)) s =
          (r, { s with fs := { s.fs with volumes := Function.update s.fs.volumes vol w } }) := by
        rw [onVolume, hrun]
      cases r with
      | ok view => rw [Eff.bind_ok hon]; rfl
      | error e => rw [Eff.bind_error hon]; rfl

/-- Every table answers, after every run of calls on it, for the map that follows the run; and every
directory that requests reach is listed as the map that its lookups show. -/
theorem directories_refine_maps (hsmall : p.Small) (d : D) :
    (∀ v dir m, MapRun p d v dir m → m.Answers v dir) ∧
      ∀ v i, Reachable anyRequest p d v → Found v i → (v.view.inode i).type = nyfsInoTypeDir →
        ∃ (m : NameMap) (views : List DirentView), m.Answers v (v.view.inode i) ∧ m.Lists views ∧
          (∀ name, NameOk name → (lookupName i name v).1 = foundOr (m.lookup name)) ∧
          ∀ cred index, Grants v.view (v.view.inode i) cred nyfsAceReadData →
            (opReaddirAt i cred index v).1 = foundOr views[index]? ∧
            ∀ (s : Drivers (NyfsState D)) a vol nameOutMax, VnodeOf s a vol i →
              s.fs.volumes vol = v → s.fs.cred = cred → nameOutMax ≠ 0 →
              (nyfsReaddir a index nameOutMax s).1 =
                foundOr ((views[index]?).map (fun view =>
                  (view.name.take (nameOutMax - 1), view.type))) := by
  constructor
  · intro v dir m h
    obtain ⟨hL, hv, n, hstored⟩ := h.stored hsmall
    exact hstored.answers hL hv
  · intro v i h hfound htype
    obtain ⟨nodes, hsound⟩ := h.inventory hsmall
    have hlive := hfound.live hsound.valid hsound.mounted hsound.inventory
    obtain ⟨m, hstored⟩ := hsound.stored hlive htype
    refine ⟨m, _, hstored.answers hsound.valid hsound.mounted, hstored.lists, fun name hname => ?_,
      fun cred index hgrants => ⟨?_, ?_⟩⟩
    · rw [hsound.lookupName hlive, if_pos htype, Node.lookup, if_neg hname.not_invalid, hstored.find]
    · rw [opReaddirAt, hsound.readdirNode hlive htype hgrants hstored, hstored.lists.cut_eq]
    · rintro s a vol nameOutMax ha rfl rfl hmax
      rw [nyfsReaddir_eq ha hmax, hsound.readdirNode hlive htype hgrants hstored]
      cases (List.map (Record.view nyfsNameMax) (nodes i).records)[index]? with
      | none => rfl
      | some view => rfl

/-- A table on a small volume with one name in it. -/
theorem tiny_table : ∃ (v : Volume MemoryDisk) (dir : Inode),
    MapRun (tinyParams 114) ⟨fun _ => 0⟩ v dir (Finmap.insert [97] (5, nyfsDirentTypeFile) ∅) := by
  have hname : NameOk [97] := nameOk_a
  obtain ⟨v, nodes, hreach, hsound, hfile⟩ := tiny_file (D := MemoryDisk) anyRequest (Or.inl rfl)
    ⟨fun _ => 0⟩ hname (fun _ => trivial)
  have hL := hsound.valid
  obtain ⟨res, dir', V', hdoes, hout⟩ := hsound.inventory.ready.stores_empty (D := MemoryDisk) hL
    (v.view.inode 2)
  obtain ⟨v', hrun, hmounted, rfl, -⟩ := hdoes.run hL hsound.mounted rfl
  rcases hout with ⟨rfl, n, hstored, hfree, hcapacity⟩ | ⟨-, hplan⟩
  · obtain ⟨res', dir'', V'', n', hdoes', hout'⟩ := hstored.insert (D := MemoryDisk) hL hname
      Finmap.notMem_empty (show 5 < 2 ^ 64 by decide) (show nyfsDirentTypeFile < 256 by decide)
    obtain ⟨v'', hrun', -⟩ := hdoes'.run hL hmounted rfl
    have hmap := MapRun.inserted (MapRun.created hreach hrun) hname Finmap.notMem_empty
      (show 5 < 2 ^ 64 by decide) (show nyfsDirentTypeFile < 256 by decide) hrun'
    rcases hout' with ⟨rfl, -⟩ | ⟨-, -, hfull⟩
    · exact ⟨v'', dir'', hmap⟩
    · refine absurd (Or.inl ?_) hfull
      rw [hfree, hcapacity]
      decide
  · rw [hfile.bits_eq] at hplan
    exact absurd hplan (by decide +kernel)

theorem directories_refine_maps_small : ∃ (v : Volume MemoryDisk) (dir : Inode),
    MapRun (tinyParams 114) ⟨fun _ => 0⟩ v dir (Finmap.insert [97] (5, nyfsDirentTypeFile) ∅) ∧
      NameMap.Answers (Finmap.insert [97] (5, nyfsDirentTypeFile) ∅) v dir := by
  have hsmall : (tinyParams 114).Small := ⟨by decide, by decide⟩
  obtain ⟨v, dir, hmap⟩ := tiny_table
  exact ⟨v, dir, hmap, (directories_refine_maps hsmall _).1 v dir _ hmap⟩

end Nyfs
end Nyxis
