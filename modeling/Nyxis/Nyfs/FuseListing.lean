import Nyxis.Nyfs.FuseNames
import Nyxis.Nyfs.Names

/-!
# Listings of the FUSE driver

A directory is listed by slots: itself, its parent, and the records of its table.  A call starts at
the slot that the kernel of the host gives back and stops when the buffer is full.

Main results:

- Theorem {lit}`Sound.readdirLoop_run`: what one call hands over.
- Theorem {lit}`Sound.meets_readdir`: a call answers what it means.
- Theorem {lit}`Sound.readdirPieces_run`: the pieces of a listing make up the listing.
-/

namespace Nyxis
namespace Nyfs

open NameTree
open Fuse (FuseCall Response DirEntry slotEntry readdirLoop opReaddir valued nyfsResolve
  nyfsStatusToErrno_neg Serves TreeStep listing childEntry)

variable {D : Type} [ReliableDevice D] {L : Layout} {v v' : Volume D}
variable {nodes nodes' : Nat → Node} {i : Nat} {cred : Cred}

/-! ## Slots -/

/-- The children of a directory in the order of its table. -/
def childrenOf (v : Volume D) (n : Node) : List (List UInt8 × Object) :=
  n.records.map (fun r => (r.name, objectOf v r.ino))

theorem Sound.names_nodup (h : Sound L v nodes) (hi : Live L v.view i) :
    ((nodes i).records.map Record.name).Nodup := by
  rcases (h.inventory.holds i hi).type with hfile | hdir
  · rw [((h.inventory.holds i hi).file hfile).2.2]
    exact List.nodup_nil
  · exact ((h.inventory.holds i hi).dir hdir).1.table.names

/-- The children are those of the tree. -/
theorem Sound.lists_children (h : Sound L v nodes) {place : Names}
    (hwalk : walk (edgeOf v) nyfsRootIno place = some i) :
    Fuse.Lists (treeOf v) place (childrenOf v (nodes i)) := by
  have hnames := h.names_nodup (h.walk_live hwalk)
  constructor
  · rw [childrenOf, List.map_map]
    exact hnames
  · intro name o
    rw [h.tree_below hwalk, Option.map_eq_some_iff, childrenOf, List.mem_map]
    constructor
    · rintro ⟨r, hr, heq⟩
      obtain ⟨rfl, rfl⟩ := Prod.mk.inj heq
      refine ⟨(r.ino, r.type), ?_, rfl⟩
      have hrecord : recordOf (nodes i).buckets r.name = some r :=
        (find?_name_eq_some hnames).mpr ⟨hr, rfl⟩
      rw [Node.find, hrecord]
      rfl
    · rintro ⟨⟨j, type⟩, hfind, rfl⟩
      obtain ⟨r, hr, rfl, rfl⟩ := Node.record_of_find hfind
      exact ⟨r, hr, rfl⟩

/-- The number of the record at an index, when the listing is granted. -/
theorem Sound.readdirAt_run (h : Sound L v nodes) (hi : Live L v.view i)
    (htype : (v.view.inode i).type = nyfsInoTypeDir)
    (hgrants : Grants v.view (v.view.inode i) cred nyfsAceReadData) (index : Nat) :
    opReaddirAt i cred index v =
      (foundOr (((nodes i).records.map (Record.view nyfsNameMax))[index]?), v) := by
  obtain ⟨m, hm⟩ := h.stored hi htype
  have hrun := h.readdirNode hi htype hgrants hm index nyfsNameMax
  rw [hm.lists.cut_eq] at hrun
  rw [← hrun]
  exact (reads_readdirNode i cred index nyfsNameMax).run_eq v

/-- A listing that is not granted fails. -/
theorem Sound.readdirAt_denied (h : Sound L v nodes) (hi : Live L v.view i)
    (hno : ¬((v.view.inode i).type = nyfsInoTypeDir ∧
      Grants v.view (v.view.inode i) cred nyfsAceReadData)) (index : Nat) :
    ∃ e, e ≠ .NnotFound ∧ opReaddirAt i cred index v = (.error (.status e), v) := by
  have hreads := (reads_readdirNode i cred index nyfsNameMax : Eff.Reads (_ : NyfsM D _)).run_eq v
  have hread := h.inventory.toOwned.does_readDirInode (D := D) h.valid hi
  by_cases htype : (v.view.inode i).type = nyfsInoTypeDir
  · have haccess := (h.inventory.holds i hi).does_checkAccess (D := D) h.valid cred nyfsAceReadData
    rw [if_neg (not_not.mpr htype)] at hread
    rw [if_neg (fun hgrants => hno ⟨htype, hgrants⟩)] at haccess
    have hdoes : Does L v.view (Nyfs.readdirNode i cred index nyfsNameMax : NyfsM D _)
        (.error (.status .Npermission)) v.view := hread.bind haccess.bind_error
    obtain ⟨w, hrun, -⟩ := hdoes.run h.valid h.mounted rfl
    rw [hrun] at hreads
    exact ⟨.Npermission, by decide, hrun.trans hreads⟩
  · rw [if_pos htype] at hread
    have hdoes : Does L v.view (Nyfs.readdirNode i cred index nyfsNameMax : NyfsM D _)
        (.error (.status .Nunsupported)) v.view := hread.bind_error
    obtain ⟨w, hrun, -⟩ := hdoes.run h.valid h.mounted rfl
    rw [hrun] at hreads
    exact ⟨.Nunsupported, by decide, hrun.trans hreads⟩

/-- The listing of an inode. -/
def listingOf (v : Volume D) (n : Node) (i : Nat) : List DirEntry :=
  listing (objectOf v i) (childrenOf v n)

/-- The entry of a record. -/
theorem Sound.childEntry_eq (h : Sound L v nodes) (hi : Live L v.view i) {r : Record}
    (hr : r ∈ (nodes i).records) (slot : Nat) :
    (⟨(Record.view nyfsNameMax r).name, (Record.view nyfsNameMax r).ino,
        if (Record.view nyfsNameMax r).type = nyfsDirentTypeDir then Fuse.sIfdir else Fuse.sIfreg,
        slot + 1⟩ : DirEntry) = childEntry slot (r.name, objectOf v r.ino) := by
  obtain ⟨hlive, -, htype⟩ := h.inventory.target i hi r hr
  have hname : r.name.take nyfsNameMax = r.name := by
    rcases (h.inventory.holds i hi).type with hfile | hdir
    · rw [((h.inventory.holds i hi).file hfile).2.2] at hr
      cases hr
    · exact List.take_of_length_le (((h.inventory.holds i hi).dir hdir).1.table.valid r hr).name_le
  have hkind : r.type = nyfsDirentTypeDir ↔ (objectOf v r.ino).isDir = true := by
    rw [h.object_isDir hlive, htype, direntType]
    constructor
    · intro heq
      by_contra hne
      rw [if_neg hne] at heq
      cases heq
    · exact fun heq => if_pos heq
  unfold childEntry Record.view
  dsimp only
  rw [hname, h.object_ino hlive]
  by_cases hdir : r.type = nyfsDirentTypeDir
  · rw [if_pos hdir, if_pos (hkind.mp hdir)]
  · rw [if_neg hdir, if_neg (mt hkind.mpr hdir)]

/-- The entry of a slot. -/
theorem Sound.slotEntry_run (h : Sound L v nodes) (hi : Live L v.view i) {slot : Nat}
    (hgrants : slot < 2 ∨ (v.view.inode i).type = nyfsInoTypeDir ∧
      Grants v.view (v.view.inode i) cred nyfsAceReadData) :
    slotEntry i cred slot v = (foundOr ((listingOf v (nodes i) i)[slot]?), v) := by
  rw [slotEntry]
  by_cases hzero : slot = 0
  · rw [if_pos hzero, hzero, listingOf, listing, h.object_ino hi]
    rfl
  rw [if_neg hzero]
  by_cases hone : slot = 1
  · rw [if_pos hone, hone, listingOf, listing, h.object_ino hi]
    rfl
  rw [if_neg hone]
  obtain ⟨k, rfl⟩ := Nat.exists_eq_add_of_le (show 2 ≤ slot by omega)
  rcases hgrants with hlt | ⟨htype, hgrants⟩
  · omega
  have hentry : (listingOf v (nodes i) i)[2 + k]? =
      ((nodes i).records[k]?).map (fun r => childEntry (2 + k) (r.name, objectOf v r.ino)) := by
    rw [Nat.add_comm 2 k, listingOf, listing, List.getElem?_cons_succ, List.getElem?_cons_succ,
      List.getElem?_mapIdx, childrenOf, List.getElem?_map, Option.map_map]
    rfl
  have hrun := h.readdirAt_run hi htype hgrants k
  rw [Nat.add_sub_cancel_left, hentry]
  rw [List.getElem?_map] at hrun
  cases hr : (nodes i).records[k]? with
  | none =>
      rw [hr] at hrun
      rw [Eff.bind_error hrun]
      rfl
  | some r =>
      rw [hr] at hrun
      rw [Eff.bind_ok hrun, Option.map_some, ← h.childEntry_eq hi (List.mem_of_getElem? hr)]
      rfl

/-! ## One call -/

/-- The loop hands over the entries of its slots. -/
theorem readdirLoop_run {entries : List DirEntry} {room slot : Nat}
    (hslots : ∀ s, slot ≤ s → s ≤ slot + room → slotEntry i cred s v = (foundOr (entries[s]?), v)) :
    readdirLoop i cred room slot v = (.ok ((entries.drop slot).take room), v) := by
  induction room generalizing slot with
  | zero =>
      have hslot := hslots slot le_rfl (Nat.le_add_right _ _)
      rw [readdirLoop, List.take_zero]
      cases hentry : entries[slot]? with
      | none =>
          rw [hentry] at hslot
          rw [Eff.bind_ok (attemptStatus_error hslot)]
          rfl
      | some entry =>
          rw [hentry] at hslot
          rw [Eff.bind_ok (attemptStatus_ok hslot)]
          rfl
  | succ room ih =>
      have hslot := hslots slot le_rfl (Nat.le_add_right _ _)
      have hrest := @ih (slot + 1) (fun s hlo hhi => hslots s (by omega) (by omega))
      rw [readdirLoop]
      cases hentry : entries[slot]? with
      | none =>
          rw [hentry] at hslot
          rw [Eff.bind_ok (attemptStatus_error hslot),
            List.drop_of_length_le (List.getElem?_eq_none_iff.mp hentry)]
          rfl
      | some entry =>
          rw [hentry] at hslot
          rw [Eff.bind_ok (attemptStatus_ok hslot)]
          dsimp only
          obtain ⟨hlt, rfl⟩ := List.getElem?_eq_some_iff.mp hentry
          rw [Eff.bind_ok hrest, List.drop_eq_getElem_cons hlt, List.take_succ_cons]
          rfl

/-- The loop stops at a slot that fails. -/
theorem readdirLoop_failed {room slot : Nat} {e : Nstatus} (hne : e ≠ .NnotFound)
    (hslot : slotEntry i cred slot v = (.error (.status e), v)) :
    readdirLoop i cred room slot v = (.error (.status e), v) := by
  rw [readdirLoop, Eff.bind_ok (attemptStatus_error hslot)]
  cases e with
  | NnotFound => exact absurd rfl hne
  | _ => rfl

/-- The loop fails at the first record when the listing is not granted. -/
theorem Sound.readdirLoop_denied (h : Sound L v nodes) (hi : Live L v.view i)
    (hno : ¬((v.view.inode i).type = nyfsInoTypeDir ∧
      Grants v.view (v.view.inode i) cred nyfsAceReadData)) {room slot : Nat}
    (hreach : 2 ≤ slot + room) :
    ∃ e, readdirLoop i cred room slot v = (.error (.status e), v) := by
  by_cases hlt : 2 ≤ slot
  · obtain ⟨e, hne, hrun⟩ := h.readdirAt_denied hi hno (slot - 2)
    refine ⟨e, readdirLoop_failed hne ?_⟩
    rw [slotEntry, if_neg (by omega), if_neg (by omega), Eff.bind_error hrun]
  · cases room with
    | zero => omega
    | succ room =>
        have hnext : 2 ≤ slot + 1 + room := by omega
        obtain ⟨e, hrest⟩ := h.readdirLoop_denied hi hno hnext
        have hslot : slotEntry i cred slot v = _ := h.slotEntry_run hi (Or.inl (Nat.not_le.mp hlt))
        have hentry : slot < (listingOf v (nodes i) i).length := by
          rw [listingOf, listing, List.length_cons, List.length_cons]
          omega
        rw [List.getElem?_eq_getElem hentry] at hslot
        refine ⟨e, ?_⟩
        rw [readdirLoop, Eff.bind_ok (attemptStatus_ok hslot)]
        dsimp only
        rw [Eff.bind_error hrest]

theorem Sound.meets_readdir (h : Sound L v nodes) (hplain : Plain L v.view) (path : List UInt8)
    (offset room : Nat) : Meets L v cred (.readdir path offset room) := by
  rcases h.resolve_cases hplain path with ⟨k, hres, hwalk, hshows⟩ | ⟨e, hres, hno⟩
  swap
  · refine ⟨_, v, nodes, valued_error _ (Eff.bind_error hres), StaysServed.refl h hplain,
      TreeStep.refused (fun a t' hserves => ?_) (nyfsStatusToErrno_neg e)⟩
    cases hserves with
    | readdir hshows => exact hno _ hshows
  have hlive := h.walk_live hwalk
  have hdir := h.object_isDir hlive
  have hread : (objectOf v k).Grants cred nyfsAceReadData ↔ _ := h.object_grants hplain hlive _
  by_cases hgrants : offset + room < 2 ∨ (v.view.inode k).type = nyfsInoTypeDir ∧
      Grants v.view (v.view.inode k) cred nyfsAceReadData
  · have hloop : readdirLoop k cred room offset v =
        (.ok (((listingOf v (nodes k) k).drop offset).take room), v) := by
      refine readdirLoop_run (fun s hlo hhi => h.slotEntry_run hlive ?_)
      rcases hgrants with hlt | hgrants
      · exact Or.inl (by omega)
      · exact Or.inr hgrants
    refine ⟨_, v, nodes, valued_ok _ ((Eff.bind_ok hres).trans hloop), StaysServed.refl h hplain,
      TreeStep.served (Serves.readdir hshows ?_ (h.lists_children hwalk)) le_rfl⟩
    exact hgrants.imp id (fun hboth => ⟨hdir.mpr hboth.1, hread.mpr hboth.2⟩)
  · rw [not_or] at hgrants
    obtain ⟨e, hloop⟩ := h.readdirLoop_denied hlive hgrants.2 (Nat.not_lt.mp hgrants.1)
    refine ⟨_, v, nodes, valued_error _ ((Eff.bind_ok hres).trans hloop), StaysServed.refl h hplain,
      TreeStep.refused (fun a t' hserves => ?_) (nyfsStatusToErrno_neg e)⟩
    cases hserves with
    | readdir hshows' hgrants' =>
        rw [Option.some.inj (hshows'.object.symm.trans hshows.object)] at hgrants'
        rcases hgrants' with hlt | ⟨hisDir, hreads⟩
        · exact hgrants.1 hlt
        · exact hgrants.2 ⟨hdir.mp hisDir, hread.mp hreads⟩

/-! ## Several calls -/

/-- A directory is read with buffers of the given sizes, each call from the offset behind the last
entry. -/
def readdirPieces (path : List UInt8) (cred : Cred) : Nat → List Nat → NyfsM D (List DirEntry)
  | _, [] => pure []
  | offset, room :: rooms => do
      let (_, entries) ← opReaddir path offset room cred
      let got := entries.getD []
      let rest ← readdirPieces path cred ((got.getLast?.map DirEntry.off).getD offset) rooms
      pure (got ++ rest)

/-- The offset behind an entry of a listing. -/
theorem off_of_listing {o : Object} {children : List (List UInt8 × Object)} {k : Nat} {entry : DirEntry}
    (h : (listing o children)[k]? = some entry) : entry.off = k + 1 := by
  match k with
  | 0 =>
      obtain rfl := Option.some.inj h
      rfl
  | 1 =>
      obtain rfl := Option.some.inj h
      rfl
  | k + 2 =>
      rw [listing, List.getElem?_cons_succ, List.getElem?_cons_succ, List.getElem?_mapIdx,
        Option.map_eq_some_iff] at h
      obtain ⟨child, -, rfl⟩ := h
      rfl

/-- The offset behind a piece of a listing. -/
theorem off_of_piece (o : Object) (children : List (List UInt8 × Object)) (offset room : Nat) :
    ((((listing o children).drop offset).take room).getLast?.map DirEntry.off).getD offset =
      offset + (((listing o children).drop offset).take room).length := by
  generalize hgot : ((listing o children).drop offset).take room = got
  cases hlast : got.getLast? with
  | none =>
      rw [List.getLast?_eq_none_iff.mp hlast]
      rfl
  | some entry =>
      have hne : got ≠ [] := by
        rintro rfl
        cases hlast
      have hpos := List.length_pos_of_ne_nil hne
      rw [List.getLast?_eq_getElem?] at hlast
      have hroom : got.length - 1 < room := by
        have hle : got.length ≤ room := by
          rw [← hgot]
          exact List.length_take_le _ _
        omega
      rw [← hgot, List.getElem?_take, hgot, if_pos hroom, List.getElem?_drop] at hlast
      rw [Option.map_some, Option.getD_some, off_of_listing hlast]
      omega

/-- The pieces of a listing make up its front. -/
theorem Sound.readdirPieces_run (h : Sound L v nodes) {path : List UInt8} {k : Nat}
    (hres : nyfsResolve path cred v = (.ok k, v)) (hlive : Live L v.view k)
    (htype : (v.view.inode k).type = nyfsInoTypeDir)
    (hgrants : Grants v.view (v.view.inode k) cred nyfsAceReadData) (offset : Nat) (rooms : List Nat) :
    readdirPieces path cred offset rooms v =
      (.ok (((listingOf v (nodes k) k).drop offset).take rooms.sum), v) := by
  induction rooms generalizing offset with
  | nil =>
      rw [List.sum_nil, List.take_zero]
      rfl
  | cons room rooms ih =>
      have hloop : readdirLoop k cred room offset v =
          (.ok (((listingOf v (nodes k) k).drop offset).take room), v) :=
        readdirLoop_run (fun s _ _ => h.slotEntry_run hlive (Or.inr ⟨htype, hgrants⟩))
      have hcall : opReaddir path offset room cred v =
          (.ok (0, some (((listingOf v (nodes k) k).drop offset).take room)), v) :=
        replyWith_ok ((Eff.bind_ok hres).trans hloop)
      rw [readdirPieces, Eff.bind_ok hcall]
      dsimp only
      rw [Option.getD_some, listingOf, off_of_piece, ← listingOf, Eff.bind_ok (ih _), List.sum_cons,
        take_drop_add]
      rfl

end Nyfs
end Nyxis
