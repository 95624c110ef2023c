import Nyxis.Nyfs.FuseListing

/-!
# The FUSE driver serves a tree of files

The requests on what stands at a place read, write and change it as they mean.  With the requests on
names the driver does this in every run, over mounts and remounts.

Main results:

- Theorem {lit}`FileWrite.wrote`: a write on the inventory is a write to an object.
- Theorem {lit}`Sound.meets`: every request answers what it means.
- Theorem {lit}`fuse_serves_tree`: a log of the driver is a log of the tree.
- Theorem {lit}`fuse_lists_once`: a directory is listed completely, however the calls cut it.
-/

namespace Nyxis
namespace Nyfs

open NameTree
open Fuse (FuseCall Response numbered valued reply nyfsResolve target nyfsStatusToErrno nyfsStatusToErrno_neg handleOf TargetAt
  Serves TreeStep Wrote changed Owns touched enospc)

variable {D : Type} [ReliableDevice D] {L : Layout} {v v' : Volume D}
variable {nodes nodes' : Nat → Node} {i : Nat} {cred : Cred}

/-! ## Targets -/

/-- The inode of an open file, or of the path when there is none. -/
def resolveTarget (path : List UInt8) (cred : Cred) (fi : Option Nat) : NyfsM D Nat :=
  match fi with
  | some fh => pure fh
  | none => nyfsResolve path cred

theorem target_eq (path : List UInt8) (cred : Cred) (fh : Nat) :
    (target path cred fh : NyfsM D Nat) = resolveTarget path cred (handleOf fh) := by
  unfold target handleOf
  split
  next => rfl
  next => rfl

/-- A target stands at its place, or the tree does not grant the way. -/
theorem Sound.target_cases (h : Sound L v nodes) (hplain : Plain L v.view) (path : List UInt8)
    {fi : Option Nat} (hfound : ∀ ino ∈ fi, Found v ino) :
    (∃ k place, resolveTarget path cred fi v = (.ok k, v) ∧
        walk (edgeOf v) nyfsRootIno place = some k ∧
        TargetAt (treeOf v) cred path fi place (objectOf v k)) ∨
      ∃ e, resolveTarget path cred fi v = (.error (.status e), v) ∧
        ∀ place o, ¬TargetAt (treeOf v) cred path fi place o := by
  cases fi with
  | none =>
      rcases h.resolve_cases hplain path with ⟨k, hrun, hwalk, hshows⟩ | ⟨e, hrun, hno⟩
      · exact Or.inl ⟨k, _, hrun, hwalk, rfl, hshows⟩
      · exact Or.inr ⟨e, hrun, fun place o htarget => hno o (htarget.1 ▸ htarget.2)⟩
  | some ino =>
      obtain ⟨place, hwalk⟩ := found_iff_walk.mp (hfound ino rfl)
      exact Or.inl ⟨ino, place, rfl, hwalk, treeOf_walk hwalk, h.object_ino (h.walk_live hwalk)⟩

/-- The objects of a tree have different numbers. -/
theorem Sound.tree_once (h : Sound L v nodes) (p q : Names) (a b : Object)
    (ha : treeOf v p = some a) (hb : treeOf v q = some b) (hino : a.ino = b.ino) : p = q := by
  obtain ⟨j, hj, rfl⟩ := treeOf_eq_some.mp ha
  obtain ⟨k, hk, rfl⟩ := treeOf_eq_some.mp hb
  rw [h.object_ino (h.walk_live hj), h.object_ino (h.walk_live hk)] at hino
  subst hino
  exact h.rooted.walk_inj hj hk

/-! ## Reading -/

theorem Sound.meets_openFile (h : Sound L v nodes) (hplain : Plain L v.view) (path : List UInt8) :
    Meets L v cred (.openFile path) := by
  rcases h.resolve_cases hplain path with ⟨k, hrun, hwalk, hshows⟩ | ⟨e, hrun, hno⟩
  · have hserves : Serves L.blockSize cred (treeOf v) _ _ _ := Serves.openFile hshows
    rw [h.object_ino (h.walk_live hwalk)] at hserves
    exact ⟨_, v, nodes, valued_ok _ hrun, StaysServed.refl h hplain, TreeStep.served hserves le_rfl⟩
  · refine ⟨_, v, nodes, valued_error _ hrun, StaysServed.refl h hplain,
      TreeStep.refused (fun a t' hserves => ?_) (nyfsStatusToErrno_neg e)⟩
    cases hserves with
    | openFile hshows => exact hno _ hshows

theorem Sound.readInode_run (h : Sound L v nodes) (hi : Live L v.view i) :
    readInode i v = (.ok (v.view.inode i), v) := by
  rcases (h.asks_readInode hi).cases with ⟨x, hread⟩ | ⟨e, hread⟩
  · have hok := h.readInode_ok hi
    rw [hread] at hok
    rw [hread, Except.ok.inj hok]
  · have hok := h.readInode_ok hi
    rw [hread] at hok
    cases hok

/-- The attributes that are filled in are those of the object. -/
theorem Sound.fillStat_eq (h : Sound L v nodes) (hi : Live L v.view i) (bs : Nat) :
    Fuse.nyfsFillStat bs i (v.view.inode i) = Fuse.statOf bs (objectOf v i) := by
  rw [h.objectOf_eq hi, Fuse.nyfsFillStat, (h.inventory.holds i hi).linkCount, if_pos Nat.one_ne_zero]
  simp only [Fuse.statOf, Inode.object, decide_eq_true_eq]

theorem Sound.meets_getattr (h : Sound L v nodes) (hplain : Plain L v.view) (path : List UInt8) :
    Meets L v cred (.getattr path) := by
  rcases h.resolve_cases hplain path with ⟨k, hrun, hwalk, hshows⟩ | ⟨e, hrun, hno⟩
  · have hlive := h.walk_live hwalk
    refine ⟨_, v, nodes, valued_ok _ ?_, StaysServed.refl h hplain,
      TreeStep.served (Serves.getattr hshows) le_rfl⟩
    rw [Eff.bind_ok hrun, Eff.bind_ok (h.readInode_run hlive), Eff.gets_bind_run, h.fillStat_eq hlive,
      h.mounted.blockSize]
    rfl
  · refine ⟨_, v, nodes, valued_error _ (Eff.bind_error hrun), StaysServed.refl h hplain,
      TreeStep.refused (fun a t' hserves => ?_) (nyfsStatusToErrno_neg e)⟩
    cases hserves with
    | getattr hshows => exact hno _ hshows

theorem Fuse.toInt32_of_lt {n : Nat} (h : n < 2 ^ 31) : Fuse.toInt32 n = n := by
  rw [Fuse.toInt32, BitVec.toInt_eq_toNat_of_lt, BitVec.toNat_ofNat, Nat.mod_eq_of_lt (by omega)]
  rw [BitVec.toNat_ofNat, Nat.mod_eq_of_lt (by omega)]
  omega

theorem reads_opRead (i : Nat) (cred : Cred) (off size : Nat) :
    Eff.Reads (opRead i cred off size : NyfsM D _) := by
  refine (reads_readInode i).bind (fun x => (reads_checkAccess x cred _).bind (fun _ => ?_))
  unfold inodeRead
  split
  next => exact Eff.reads_pure []
  next => exact reads_extentReadAt _ _ _

/-- A read of a live inode returns the bytes of its object when it is granted. -/
theorem Sound.opRead_run (h : Sound L v nodes) (hplain : Plain L v.view) (hi : Live L v.view i)
    (off size : Nat) :
    opRead i cred off size v =
      (if (objectOf v i).Grants cred nyfsAceReadData then
        .ok (((objectOf v i).content.drop off).take size)
      else .error (.status .Npermission), v) := by
  obtain ⟨w, hrun, -⟩ := (h.inventory.does_opRead (D := D) h.valid hi cred off size).run h.valid
    h.mounted rfl
  obtain rfl : v = w := by
    have hsame := reads_opRead i cred off size v
    rw [hrun] at hsame
    exact hsame.symm
  have hcontent : (objectOf v i).content = (nodes i).content L v.view (v.view.inode i) := by
    rw [h.objectOf_eq hi]
    rfl
  rw [hrun, hcontent]
  by_cases hgrants : Grants v.view (v.view.inode i) cred nyfsAceReadData
  · rw [if_pos hgrants, if_pos ((h.object_grants hplain hi _).mpr hgrants)]
  · rw [if_neg hgrants, if_neg (mt (h.object_grants hplain hi _).mp hgrants)]

theorem Sound.meets_read (h : Sound L v nodes) (hplain : Plain L v.view) {path : List UInt8}
    {size offset fh : Nat} (hfits : (FuseCall.read path size offset fh).Fits)
    (hfound : ∀ ino ∈ handleOf fh, Found v ino) :
    Meets L v cred (.read path size offset fh) := by
  have hsize : size < 2 ^ 31 := hfits
  rcases h.target_cases hplain path hfound with
    ⟨k, place, hrun, hwalk, htarget⟩ | ⟨e, hrun, hno⟩
  swap
  · refine ⟨⟨nyfsStatusToErrno e, .bytes []⟩, v, nodes, ?_, StaysServed.refl h hplain,
      TreeStep.refused (fun n t' hserves => ?_) (nyfsStatusToErrno_neg e)⟩
    · have hread : Fuse.opRead path size offset fh cred v = (.ok (nyfsStatusToErrno e, []), v) := by
        rw [Fuse.opRead, target_eq, Eff.bind_ok (attemptStatus_error hrun)]
        rfl
      rw [FuseCall.exec, Eff.bind_ok hread]
      rfl
    · cases hserves with
      | read htarget => exact hno _ _ htarget
  have hbytes : opRead k cred offset size v = _ :=
    h.opRead_run hplain (h.walk_live hwalk) offset size
  by_cases hgrants : (objectOf v k).Grants cred nyfsAceReadData
  · rw [if_pos hgrants] at hbytes
    refine ⟨_, v, nodes, ?_, StaysServed.refl h hplain,
      TreeStep.served (Serves.read htarget hgrants) (Int.natCast_nonneg _)⟩
    have hread : Fuse.opRead path size offset fh cred v =
        (.ok ((((objectOf v k).content.drop offset).take size).length,
          ((objectOf v k).content.drop offset).take size), v) := by
      rw [Fuse.opRead, target_eq, Eff.bind_ok (attemptStatus_ok hrun)]
      dsimp only
      rw [Eff.bind_ok (attemptStatus_ok hbytes)]
      dsimp only
      rw [Fuse.toInt32_of_lt (lt_of_le_of_lt (List.length_take_le _ _) hsize)]
      rfl
    rw [FuseCall.exec, Eff.bind_ok hread]
    rfl
  · rw [if_neg hgrants] at hbytes
    refine ⟨⟨nyfsStatusToErrno .Npermission, .bytes []⟩, v, nodes, ?_, StaysServed.refl h hplain,
      TreeStep.refused (fun n t' hserves => ?_) (nyfsStatusToErrno_neg .Npermission)⟩
    · have hread : Fuse.opRead path size offset fh cred v =
          (.ok (nyfsStatusToErrno .Npermission, []), v) := by
        rw [Fuse.opRead, target_eq, Eff.bind_ok (attemptStatus_ok hrun)]
        dsimp only
        rw [Eff.bind_ok (attemptStatus_error hbytes)]
        rfl
      rw [FuseCall.exec, Eff.bind_ok hread]
      rfl
    · cases hserves with
      | read htarget' hgrants' =>
          rw [(TargetAt.unique h.tree_once htarget' htarget).2] at hgrants'
          exact hgrants hgrants'

/-! ## Attributes -/

/-- A change of one inode that keeps the counts of its list. -/
theorem Plain.of_touches (hplain : Plain L v.view) (hi : Live L v.view i)
    (htouches : Touches L v.view nodes i v'.view nodes')
    (hcount : (v'.view.inode i).aceCount = (v.view.inode i).aceCount)
    (hover : (v'.view.inode i).aclOverflowCount = (v.view.inode i).aclOverflowCount) :
    Plain L v'.view := by
  intro j hj
  have hold : Live L v.view j := (live_congr htouches.inodeBit).mp hj
  by_cases hji : j = i
  · subst hji
    rw [hcount, hover]
    exact hplain j hi
  · have hcore := (htouches.others j hold hji).core
    obtain ⟨hcount', hover'⟩ := hplain j hold
    have hcountCore := congrArg (fun z : Inode => z.aceCount) hcore
    have hoverCore := congrArg (fun z : Inode => z.aclOverflowCount) hcore
    exact ⟨hcountCore.trans hcount', hoverCore.trans hover'⟩

/-- A change of the attributes of an inode is one of its object. -/
theorem Sound.setattr_run (h : Sound L v nodes) (hplain : Plain L v.view) (hi : Live L v.view i)
    {a : AttrChange} (ha : a.Fits) :
    ∃ r v', opSetattr i cred a v = (r, v') ∧ StaysServed L v v' nodes ∧
      Touches L v.view nodes i v'.view nodes ∧
      ((∃ e, r = .error (.status e) ∧ ¬Owns cred (objectOf v i) ∧ objectOf v' i = objectOf v i) ∨
        (r = .ok () ∧ Owns cred (objectOf v i) ∧ objectOf v' i = changed a (objectOf v i))) := by
  have howns : Owns cred (objectOf v i) ↔ cred.uid = 0 ∨ cred.uid = (v.view.inode i).uid := by
    rw [h.objectOf_eq hi]
    exact Iff.rfl
  obtain ⟨r, V', hdoes, hinv, htouches, hout⟩ := h.inventory.opSetattr (D := D) h.valid hi cred ha
  obtain ⟨v', hrun, hmounted, rfl, hcore⟩ := hdoes.run h.valid h.mounted rfl
  have h' : Sound L v' nodes := ⟨h.valid, hmounted, hinv⟩
  have hi' : Live L v'.view i := (live_congr htouches.inodeBit).mpr hi
  refine ⟨r, v', hrun, ?_⟩
  rcases hout with ⟨e, rfl, hview, hroot, howner⟩ | ⟨rfl, hview, hown⟩
  · refine ⟨⟨h', by rw [hview]; exact hplain, hcore⟩, htouches, Or.inl ⟨e, rfl, fun hyes => ?_, ?_⟩⟩
    · rcases howns.mp hyes with hyes | hyes
      · exact hroot hyes
      · exact howner hyes
    · rw [h.objectOf_eq hi, h'.objectOf_eq hi', hview]
  · have hinode : v'.view.inode i = sealInode i (a.apply (v.view.inode i)) := by
      rw [hview]
      exact Function.update_self ..
    have hplain' := Plain.of_touches hplain hi htouches (by rw [hinode]; rfl) (by rw [hinode]; rfl)
    refine ⟨⟨h', hplain', hcore⟩, htouches, Or.inr ⟨rfl, howns.mpr hown, ?_⟩⟩
    have hdata : SameData L v.view nodes v'.view nodes i := by
      rw [hview]
      exact SameData.written _ hi
    rw [h.objectOf_eq hi, h'.objectOf_eq hi', hdata.content_eq (by rw [hinode]; rfl), hinode]
    rfl

/-- A change of attributes by a path. -/
theorem Sound.setAttributes_run (h : Sound L v nodes) (hplain : Plain L v.view) (path : List UInt8)
    {a : AttrChange} (ha : a.Fits) :
    ∃ n v' nodes', Fuse.setAttributes path a cred v = (.ok n, v') ∧ StaysServed L v v' nodes' ∧
      ((n = 0 ∧ ∃ o, ShowsAt (treeOf v) cred (cutComponents path) o ∧ Owns cred o ∧
          treeOf v' = Function.update (treeOf v) (cutComponents path) (some (changed a o))) ∨
        (n < 0 ∧ (∀ o, ShowsAt (treeOf v) cred (cutComponents path) o → ¬Owns cred o) ∧
          treeOf v' = treeOf v)) := by
  rcases h.resolve_cases hplain path with ⟨k, hres, hwalk, hshows⟩ | ⟨e, hres, hno⟩
  swap
  · exact ⟨_, v, nodes, reply_error (Eff.bind_error hres), StaysServed.refl h hplain,
      Or.inr ⟨nyfsStatusToErrno_neg e, fun o hshows _ => hno o hshows, rfl⟩⟩
  obtain ⟨r, v', hrun, hstays, htouches, hout⟩ := h.setattr_run hplain
    (h.walk_live hwalk) ha
  rcases hout with ⟨e, rfl, hnot, hobject⟩ | ⟨rfl, howns, hobject⟩
  · refine ⟨_, v', nodes, reply_error ((Eff.bind_ok hres).trans (Eff.bind_error hrun)), hstays,
      Or.inr ⟨nyfsStatusToErrno_neg e, fun o hshows' => ?_, ?_⟩⟩
    · rw [Option.some.inj (hshows'.object.symm.trans hshows.object)]
      exact hnot
    · rw [h.tree_changed hstays.sound hwalk htouches, hobject, ← treeOf_walk hwalk,
        Function.update_eq_self]
  · refine ⟨_, v', nodes, reply_ok ((Eff.bind_ok hres).trans (Eff.bind_ok hrun)), hstays,
      Or.inl ⟨rfl, _, hshows, howns, ?_⟩⟩
    rw [h.tree_changed hstays.sound hwalk htouches, hobject]

theorem Sound.meets_chmod (h : Sound L v nodes) (hplain : Plain L v.view) (path : List UInt8)
    (mode : Nat) : Meets L v cred (.chmod path mode) := by
  obtain ⟨n, v', nodes', hrun, hstays, hout⟩ := h.setAttributes_run hplain path
    (a := ⟨some (mode % 2 ^ 16), none, none, none⟩) ⟨by simp, by simp, by simp⟩
  refine ⟨_, v', nodes', numbered_run hrun, hstays, ?_⟩
  rcases hout with ⟨rfl, o, hshows, howns, htree⟩ | ⟨hneg, hno, htree⟩
  · rw [htree]
    exact TreeStep.served (Serves.chmod hshows howns) le_rfl
  · rw [htree]
    refine TreeStep.refused (fun n t' hserves => ?_) hneg
    cases hserves with
    | chmod hshows howns => exact hno _ hshows howns

theorem Sound.meets_chown (h : Sound L v nodes) (hplain : Plain L v.view) {path : List UInt8}
    {uid gid : Nat} (hfits : (FuseCall.chown path uid gid).Fits) :
    Meets L v cred (.chown path uid gid) := by
  obtain ⟨n, v', nodes', hrun, hstays, hout⟩ := h.setAttributes_run hplain path
    (a := ⟨none, some (uid, gid), none, none⟩) ⟨fun o ho => by cases ho; exact hfits, by simp, by simp⟩
  refine ⟨_, v', nodes', numbered_run hrun, hstays, ?_⟩
  rcases hout with ⟨rfl, o, hshows, howns, htree⟩ | ⟨hneg, hno, htree⟩
  · rw [htree]
    exact TreeStep.served (Serves.chown hshows howns) le_rfl
  · rw [htree]
    refine TreeStep.refused (fun n t' hserves => ?_) hneg
    cases hserves with
    | chown hshows howns => exact hno _ hshows howns

/-- A kept time is one of 64 bits. -/
theorem Fuse.keepTime_lt {now : Nat} (h : now < 2 ^ 64) : ∀ t ∈ Fuse.keepTime now, t < 2 ^ 64 := by
  intro t ht
  rw [Fuse.keepTime] at ht
  split at ht
  next => cases ht
  next => cases ht; exact h

theorem Sound.meets_utimens (h : Sound L v nodes) (hplain : Plain L v.view) {path : List UInt8}
    {atime mtime : Nat} (hfits : (FuseCall.utimens path atime mtime).Fits) :
    Meets L v cred (.utimens path atime mtime) := by
  obtain ⟨n, v', nodes', hrun, hstays, hout⟩ := h.setAttributes_run hplain path
    (a := ⟨none, none, Fuse.keepTime mtime, Fuse.keepTime atime⟩)
    ⟨by simp, Fuse.keepTime_lt hfits.2, Fuse.keepTime_lt hfits.1⟩
  refine ⟨_, v', nodes', numbered_run hrun, hstays, ?_⟩
  rcases hout with ⟨rfl, o, hshows, howns, htree⟩ | ⟨hneg, hno, htree⟩
  · rw [htree]
    exact TreeStep.served (Serves.utimens hshows howns) le_rfl
  · rw [htree]
    refine TreeStep.refused (fun n t' hserves => ?_) hneg
    cases hserves with
    | utimens hshows howns => exact hno _ hshows howns

/-! ## Truncating -/

/-- A truncation that succeeds was granted. -/
theorem Sound.opTruncate_grants (h : Sound L v nodes) (hi : Live L v.view i) {size : Nat}
    (hrun : (opTruncate i cred size v).1 = .ok ()) :
    Grants v.view (v.view.inode i) cred nyfsAceWriteData := by
  unfold opTruncate at hrun
  rw [reads_requireWritable.bind_eq_ok] at hrun
  obtain ⟨_, -, hrun⟩ := hrun
  rw [(reads_readInode i).bind_eq_ok] at hrun
  obtain ⟨x, hx, hrun⟩ := hrun
  rw [h.readInode_ok hi] at hx
  obtain rfl := Except.ok.inj hx
  rw [(reads_checkAccess _ cred _).bind_eq_ok] at hrun
  obtain ⟨u, haccess, -⟩ := hrun
  exact (h.checkAccess_ok_iff hi _ u).mp haccess

theorem Sound.meets_truncate (h : Sound L v nodes) (hplain : Plain L v.view) (path : List UInt8)
    (size : Nat) {fi : Option Nat} (hfound : ∀ ino ∈ fi, Found v ino) :
    Meets L v cred (.truncate path size fi) := by
  have hexec : ∀ {n : Int} {w : Volume D}, reply (do
      let ino ← resolveTarget path cred fi
      Nyfs.opTruncate ino cred size
      pure 0) v = (.ok n, w) →
      (FuseCall.truncate path size fi).exec cred v = (.ok ⟨n, .nothing⟩, w) :=
    fun hrun => numbered_run hrun
  rcases h.target_cases hplain path hfound with
    ⟨k, place, hres, hwalk, htarget⟩ | ⟨e, hres, hno⟩
  swap
  · refine ⟨_, v, nodes, hexec (reply_error (Eff.bind_error hres)), StaysServed.refl h hplain,
      TreeStep.refused (fun n t' hserves => ?_) (nyfsStatusToErrno_neg e)⟩
    cases hserves with
    | truncate htarget => exact hno _ _ htarget
  have hlive := h.walk_live hwalk
  obtain ⟨r, V', hdoes, hinv, htouches, hout⟩ := h.inventory.opTruncate (D := D) h.valid hlive cred
  obtain ⟨v', hrun, hmounted, rfl, hcore⟩ := hdoes.run h.valid h.mounted rfl
  have h' : Sound L v' nodes := ⟨h.valid, hmounted, hinv⟩
  have hlive' : Live L v'.view k := (live_congr htouches.inodeBit).mpr hlive
  have htree := h.tree_changed h' hwalk htouches
  have hgrants : (objectOf v k).Grants cred nyfsAceWriteData ↔ _ := h.object_grants hplain hlive _
  have hsize : (objectOf v k).size = (v.view.inode k).size := by
    rw [h.objectOf_eq hlive]
    rfl
  rcases hout with ⟨e, rfl, hview, hdenied⟩ | ⟨rfl, hle, hview⟩
  · refine ⟨_, v', nodes, hexec (reply_error ((Eff.bind_ok hres).trans (Eff.bind_error hrun))),
      ⟨h', by rw [hview]; exact hplain, hcore⟩, ?_⟩
    have hobject : objectOf v' k = objectOf v k := by
      rw [h.objectOf_eq hlive, h'.objectOf_eq hlive', hview]
    rw [htree, hobject, ← treeOf_walk hwalk, Function.update_eq_self]
    refine TreeStep.refused (fun n t' hserves => ?_) (nyfsStatusToErrno_neg e)
    cases hserves with
    | truncate htarget' hgrants' hsize' =>
        rw [(TargetAt.unique h.tree_once htarget' htarget).2] at hgrants' hsize'
        exact hdenied ⟨hgrants.mp hgrants', hsize ▸ hsize'⟩
  · have hinode : v'.view.inode k = sealInode k { v.view.inode k with size := size } := by
      rw [hview]
      exact Function.update_self ..
    have hdata : SameData L v.view nodes v'.view nodes k := by
      rw [hview]
      exact SameData.written _ hlive
    have hobject : objectOf v' k =
        { objectOf v k with size := size, content := (objectOf v k).content.take size } := by
      rw [h.objectOf_eq hlive, h'.objectOf_eq hlive', hdata.content_take (by rw [hinode]; exact hle),
        hinode]
      rfl
    have hplain' := Plain.of_touches hplain hlive htouches (by rw [hinode]; rfl) (by rw [hinode]; rfl)
    refine ⟨_, v', nodes, hexec (reply_ok ((Eff.bind_ok hres).trans (Eff.bind_ok hrun))),
      ⟨h', hplain', hcore⟩, ?_⟩
    rw [htree, hobject]
    exact TreeStep.served (Serves.truncate htarget
      (hgrants.mpr (h.opTruncate_grants hlive (by rw [hrun]))) (hsize ▸ hle)) le_rfl

/-! ## Writing -/

theorem Sound.object_content (h : Sound L v nodes) (hi : Live L v.view i) :
    (objectOf v i).content = (nodes i).content L v.view (v.view.inode i) := by
  rw [h.objectOf_eq hi]
  rfl

theorem Sound.object_size (h : Sound L v nodes) (hi : Live L v.view i) :
    (objectOf v i).size = (v.view.inode i).size := by
  rw [h.objectOf_eq hi]
  rfl

/-- A byte of the content of an inode. -/
theorem Sound.object_byte (h : Sound L v nodes) (hi : Live L v.view i) {k : Nat}
    (hk : k < (objectOf v i).content.length) :
    (objectOf v i).content[k]? = some (streamAt L v.view (dataBlocks (nodes i).data) k) := by
  rw [h.object_content hi, Node.length_content] at hk
  rw [h.object_content hi, Node.content, getElem?_bytesAt _ _ hk, Nat.zero_add]

theorem Sound.object_length (h : Sound L v nodes) (hi : Live L v.view i) :
    (objectOf v i).content.length = min (objectOf v i).size (capacity L (nodes i).data) := by
  rw [h.object_content hi, h.object_size hi, Node.length_content]

/-- A write on the inventory is a write to an object. -/
theorem FileWrite.wrote (h : Sound L v nodes) (h' : Sound L v' nodes') (hi : Live L v.view i)
    (hi' : Live L v'.view i) {off : Nat} {bytes : List UInt8}
    (hwrite : FileWrite L v.view nodes i off bytes v'.view nodes' (.ok bytes.length))
    (hbound : off + bytes.length < 2 ^ 64) : Wrote (objectOf v i) off bytes (objectOf v' i) := by
  generalize hr : (Except.ok bytes.length : Except Stop Nat) = r at hwrite
  cases hwrite with
  | full => cases hr
  | wrapped => cases hr
  | written ds root hplan hdata hinode hbits hstream hle =>
      have hmono : capacity L (nodes i).data ≤ capacity L (nodes' i).data :=
        capacity_mono ⟨_, hdata.symm⟩
      have hsize : (objectOf v' i).size = max (objectOf v i).size (off + bytes.length) := by
        rw [h'.object_size hi', h.object_size hi, hinode]
        change max (v.view.inode i).size ((off + bytes.length) % 2 ^ 64) = _
        rw [Nat.mod_eq_of_lt hbound]
      have hlen := h.object_length hi
      have hlen' := h'.object_length hi'
      -- the stream in front of the old end
      have hfront : ∀ k, k < capacity L (nodes i).data →
          streamAt L v'.view (dataBlocks (nodes' i).data) k =
            splice (streamAt L v.view (dataBlocks (nodes' i).data)) off bytes k ∧
          streamAt L v.view (dataBlocks (nodes' i).data) k =
            streamAt L v.view (dataBlocks (nodes i).data) k := by
        intro k hk
        refine ⟨congrFun hstream k, ?_⟩
        rw [hdata]
        exact streamAt_append_left v.view _ hk
      refine ⟨?_, hsize, fun k hk => ?_, fun k hk hold => ?_, fun hne hwhole => ?_⟩
      · rw [h'.objectOf_eq hi', h.objectOf_eq hi, hinode]
        rfl
      · have hne : bytes ≠ [] := by
          rintro rfl
          exact absurd hk (Nat.not_lt_zero _)
        have hend := hle hne
        rw [h'.object_byte hi' (by omega), hstream]
        exact splice_of_mem _ hk
      · rw [h'.object_byte hi' (by omega), h.object_byte hi hold]
        obtain ⟨hnew, hsame⟩ := hfront k (by omega)
        rw [hnew, ← hsame]
        rcases hk with hk | hk
        · rw [splice_of_lt _ _ hk]
        · rw [splice_of_ge _ hk]
      · have hend := hle hne
        omega

/-- A write that finds the volume full keeps the bytes of the object. -/
theorem Sound.object_stopped (h : Sound L v nodes) (h' : Sound L v' nodes') (hi : Live L v.view i)
    (hi' : Live L v'.view i) (hinode : v'.view.inode = v.view.inode)
    (hgrown : dataBlocks (nodes i).data <+: dataBlocks (nodes' i).data)
    (hstream : ∀ o, o < capacity L (nodes i).data →
      streamAt L v'.view (dataBlocks (nodes i).data) o =
        streamAt L v.view (dataBlocks (nodes i).data) o) :
    ∃ c, objectOf v' i = { objectOf v i with content := c } ∧ (objectOf v i).content <+: c ∧
      ((objectOf v i).content.length = (objectOf v i).size → c = (objectOf v i).content) := by
  have hlen := h.object_length hi
  have hlen' := h'.object_length hi'
  have hsize : (objectOf v' i).size = (objectOf v i).size := by
    rw [h.object_size hi, h'.object_size hi', hinode]
  have hmono := capacity_mono (L := L) hgrown
  have hfront : (objectOf v i).content <+: (objectOf v' i).content := by
    rw [List.prefix_iff_eq_take]
    refine List.ext_getElem? (fun k => ?_)
    rw [List.getElem?_take]
    by_cases hk : k < (objectOf v i).content.length
    · obtain ⟨more, hmore⟩ := hgrown
      rw [if_pos hk, h.object_byte hi hk, h'.object_byte hi' (by omega), ← hmore,
        streamAt_append_left v'.view _ (show k < capacity L (nodes i).data by omega),
        hstream k (by omega)]
    · rw [if_neg hk, List.getElem?_eq_none (by omega)]
  refine ⟨(objectOf v' i).content, ?_, hfront, fun hwhole => ?_⟩
  · rw [h.objectOf_eq hi, h'.objectOf_eq hi', hinode]
    rfl
  · exact (hfront.eq_of_length (by omega)).symm

/-- Setting the time behind a write. -/
theorem Sound.ignore_setattr_run (h : Sound L v nodes) (hplain : Plain L v.view)
    (hi : Live L v.view i) {now : Nat} (hnow : now < 2 ^ 64) :
    ∃ v', ignoreStatus (opSetattr i cred ⟨none, none, Fuse.keepTime now, none⟩) v = (.ok (), v') ∧
      StaysServed L v v' nodes ∧ Touches L v.view nodes i v'.view nodes ∧
      objectOf v' i = touched cred now (objectOf v i) := by
  obtain ⟨r, v', hrun, hstays, htouches, hout⟩ := h.setattr_run hplain hi
    (a := ⟨none, none, Fuse.keepTime now, none⟩) ⟨by simp, Fuse.keepTime_lt hnow, by simp⟩
  rcases hout with ⟨e, rfl, hnot, hobject⟩ | ⟨rfl, howns, hobject⟩
  · refine ⟨v', ?_, hstays, htouches, ?_⟩
    · rw [ignoreStatus, Eff.bind_ok (attemptStatus_error hrun)]
      rfl
    · rw [touched, if_neg hnot, hobject]
  · refine ⟨v', ?_, hstays, htouches, ?_⟩
    · rw [ignoreStatus, Eff.bind_ok (attemptStatus_ok hrun)]
      rfl
    · rw [touched, if_pos howns, hobject]

theorem Sound.meets_write (h : Sound L v nodes) (hplain : Plain L v.view) {path bytes : List UInt8}
    {offset fh now : Nat} (hfits : (FuseCall.write path bytes offset fh now).Fits)
    (hfound : ∀ ino ∈ handleOf fh, Found v ino) :
    Meets L v cred (.write path bytes offset fh now) := by
  obtain ⟨hlength, hoffset, hnow⟩ := hfits
  have hexec : ∀ {n : Int} {w : Volume D}, reply (do
      let ino ← resolveTarget path cred (handleOf fh)
      let written ← Nyfs.opWrite ino cred offset bytes
      ignoreStatus (opSetattr ino cred ⟨none, none, Fuse.keepTime now, none⟩)
      pure (Fuse.toInt32 written)) v = (.ok n, w) →
      (FuseCall.write path bytes offset fh now).exec cred v = (.ok ⟨n, .nothing⟩, w) := by
    intro n w hrun
    rw [← target_eq] at hrun
    exact numbered_run hrun
  rcases h.target_cases hplain path hfound with
    ⟨k, place, hres, hwalk, htarget⟩ | ⟨e, hres, hno⟩
  swap
  · refine ⟨_, v, nodes, hexec (reply_error (Eff.bind_error hres)), StaysServed.refl h hplain,
      TreeStep.refused (fun n t' hserves => ?_) (nyfsStatusToErrno_neg e)⟩
    cases hserves with
    | write htarget => exact hno _ _ htarget
  have hlive := h.walk_live hwalk
  obtain ⟨r, V', nodes', hdoes, hinv, htouches, hout⟩ := h.inventory.opWrite (D := D) h.valid hlive cred
    offset bytes
  obtain ⟨v', hrun, hmounted, rfl, hcore⟩ := hdoes.run h.valid h.mounted rfl
  have h' : Sound L v' nodes' := ⟨h.valid, hmounted, hinv⟩
  have hlive' : Live L v'.view k := (live_congr htouches.inodeBit).mpr hlive
  have htree := h.tree_changed h' hwalk htouches
  have hgrants : (objectOf v k).Grants cred nyfsAceWriteData ↔ _ := h.object_grants hplain hlive _
  rcases hout with ⟨hdenied, rfl, hview, hnodes⟩ | ⟨hgranted, hwrite⟩
  · -- the access is denied
    refine ⟨_, v', nodes', hexec (reply_error ((Eff.bind_ok hres).trans (Eff.bind_error hrun))),
      ⟨h', by rw [hview]; exact hplain, hcore⟩, ?_⟩
    have hobject : objectOf v' k = objectOf v k := by
      rw [h.objectOf_eq hlive, h'.objectOf_eq hlive', hview, hnodes]
    rw [htree, hobject, ← treeOf_walk hwalk, Function.update_eq_self]
    refine TreeStep.refused (fun n t' hserves => ?_) (nyfsStatusToErrno_neg .Npermission)
    cases hserves with
    | write htarget' hgrants' =>
        rw [(TargetAt.unique h.tree_once htarget' htarget).2] at hgrants'
        exact hdenied (hgrants.mp hgrants')
  · cases hwrite with
    | written ds root hplan hdata hinode hbits hstream hle hperm hacl =>
        have hwrote : Wrote (objectOf v k) offset bytes (objectOf v' k) :=
          FileWrite.wrote h h' hlive hlive' (FileWrite.written ds root hplan hdata hinode hbits hstream
            hle hperm hacl) (by omega)
        have hplain' : Plain L v'.view := Plain.of_touches hplain hlive htouches
          (by rw [hinode]; rfl) (by rw [hinode]; rfl)
        obtain ⟨w, hset, hw, htouchesw, hobjectw⟩ := h'.ignore_setattr_run
          hplain' hlive' hnow
        have hwalk' : walk (edgeOf v') nyfsRootIno place = some k := by
          have hshown : treeOf v' place = some (objectOf v' k) := by
            rw [htree, Function.update_self]
          obtain ⟨j, hj, hjobject⟩ := treeOf_eq_some.mp hshown
          have hino := congrArg Object.ino hjobject
          rw [h'.object_ino (h'.walk_live hj), h'.object_ino hlive'] at hino
          rw [hj, hino]
        refine ⟨_, w, nodes', hexec (reply_ok ((Eff.bind_ok hres).trans ((Eff.bind_ok hrun).trans
          (Eff.bind_ok hset)))), ⟨hw.sound, hw.plain, hw.core.trans hcore⟩, ?_⟩
        rw [h'.tree_changed hw.sound hwalk' htouchesw, htree, Function.update_idem, hobjectw,
          Fuse.toInt32_of_lt hlength]
        exact TreeStep.served (Serves.write htarget (hgrants.mpr hgranted) hwrote)
          (Int.natCast_nonneg _)
    | full taken hne hplan htaken hsame hinode hbits hfresh hgrown hstream =>
        obtain ⟨c, hobject, hfront, hwhole⟩ := h.object_stopped h' hlive hlive' hinode hgrown hstream
        have hplain' := Plain.of_touches hplain hlive htouches (by rw [hinode]) (by rw [hinode])
        refine ⟨_, v', nodes', hexec (reply_error ((Eff.bind_ok hres).trans (Eff.bind_error hrun))),
          ⟨h', hplain', hcore⟩, ?_⟩
        rw [htree, hobject]
        exact TreeStep.stopped htarget (hgrants.mpr hgranted) hfront hwhole
    | wrapped ds hne hplan hwrap =>
        have hblock := h.valid.blockSize_le
        omega

/-! ## Runs -/

/-- Every request answers what it means. -/
theorem Sound.meets (h : Sound L v nodes) (hplain : Plain L v.view) (hcred : cred.Fits)
    {q : FuseCall} (hfits : q.Fits) (hfound : ∀ ino ∈ q.handles, Found v ino) : Meets L v cred q := by
  have hhandle : ∀ {fh : Nat}, (∀ ino ∈ (if fh = nyfsInoNone then [] else [fh]), Found v ino) →
      ∀ ino ∈ handleOf fh, Found v ino := by
    intro fh hall ino hino
    rw [handleOf] at hino
    split at hino
    next => cases hino
    next hne =>
      cases hino
      rw [if_neg hne] at hall
      exact hall fh (List.mem_singleton_self fh)
  cases q with
  | getattr path => exact h.meets_getattr hplain path
  | readdir path offset room => exact h.meets_readdir hplain path offset room
  | mkdir path mode => exact h.meets_mkdir hplain hcred path mode
  | create path mode => exact h.meets_create hplain hcred path mode
  | openFile path => exact h.meets_openFile hplain path
  | read path size offset fh => exact h.meets_read hplain hfits (hhandle hfound)
  | write path bytes offset fh now => exact h.meets_write hplain hfits (hhandle hfound)
  | unlink path => exact h.meets_unlink hplain path
  | rmdir path => exact h.meets_rmdir hplain path
  | rename oldPath newPath flags => exact h.meets_rename hplain oldPath newPath flags
  | truncate path size fi =>
      exact h.meets_truncate hplain path size (fun ino hino => hfound ino (Option.mem_toList.mpr hino))
  | chmod path mode => exact h.meets_chmod hplain path mode
  | chown path uid gid => exact h.meets_chown hplain hfits
  | utimens path atime mtime => exact h.meets_utimens hplain hfits

/-- Who asks, what is asked, and what is answered. -/
structure FuseEntry where
  cred : Cred
  call : FuseCall
  answer : Response

/-- The logs of the driver on volumes that come from a format, over mounts and remounts. -/
inductive FuseRun (p : MkfsParams) (dev : D) : List FuseEntry → Volume D → Prop
  | opened {dev' : D} {v : Volume D} (hformat : nyfsFormat dev p = (.ok (), dev'))
      (hopen : Opens dev' v) : FuseRun p dev [] v
  | reopened {log : List FuseEntry} {v w : Volume D} (h : FuseRun p dev log v)
      (hopen : Opens v.disk w) : FuseRun p dev log w
  | step {log : List FuseEntry} {v v' : Volume D} {cred : Cred} {q : FuseCall} {a : Response}
      (h : FuseRun p dev log v) (hcred : cred.Fits) (hfits : q.Fits)
      (hfound : ∀ ino ∈ q.handles, Found v ino) (hexec : q.exec cred v = (.ok a, v')) :
      FuseRun p dev (log ++ [⟨cred, q, a⟩]) v'

/-- The tree behind a format: the root directory. -/
def bareTree : FileTree :=
  Function.update (fun _ => none) [] (some (newObject nyfsRootIno true 0o755 ⟨0, 0⟩))

/-- The logs of the tree. -/
inductive TreeRun (bs : Nat) : List FuseEntry → FileTree → Prop
  | start : TreeRun bs [] bareTree
  | step {log : List FuseEntry} {t t' : FileTree} {cred : Cred} {q : FuseCall} {a : Response}
      (h : TreeRun bs log t) (hstep : TreeStep bs cred t q a t') :
      TreeRun bs (log ++ [⟨cred, q, a⟩]) t'

/-- A volume that shows the tree of a log. -/
structure Showing (p : MkfsParams) (log : List FuseEntry) (v : Volume D) : Prop where
  formed : Formed p v
  plain : Plain p.layout v.view
  tree : TreeRun p.layout.blockSize log (treeOf v)

/-- Only the root is live behind a format. -/
theorem Fresh.live_iff {image : Nat → UInt8} {V : View} (h : Fresh L image V nodes) :
    Live L V i ↔ i = nyfsRootIno := by
  constructor
  · intro hi
    have hset := hi.set
    rw [h.inodeBit] at hset
    by_contra hne
    rw [Function.update_of_ne hne, Function.update_of_ne hi.ne_zero] at hset
    cases hset
  · rintro rfl
    exact h.inventory.root.1

theorem Fresh.plain {image : Nat → UInt8} {V : View} (h : Fresh L image V nodes) : Plain L V := by
  intro i hi
  obtain rfl := h.live_iff.mp hi
  rw [h.root]
  exact ⟨rfl, rfl⟩

/-- A volume with a fresh view shows the root directory. -/
theorem Sound.tree_fresh (h : Sound L v nodes) {image : Nat → UInt8}
    (hfresh : Fresh L image v.view nodes) : treeOf v = bareTree := by
  have hroot := h.inventory.root.1
  funext path
  cases path with
  | nil =>
      have hobject : objectOf v nyfsRootIno = newObject nyfsRootIno true 0o755 ⟨0, 0⟩ := by
        rw [h.objectOf_eq hroot, Node.content, hfresh.data,
          show capacity L [] = 0 from Nat.zero_mul _, Nat.min_zero, hfresh.root, rootRecord,
          rootInode_eq]
        rfl
      rw [treeOf_walk walk_nil, hobject, bareTree, Function.update_self]
  | cons name path =>
      rw [bareTree, Function.update_of_ne (List.cons_ne_nil _ _), treeOf, view, walk_cons,
        h.edgeOf_eq hroot, Node.find, recordOf, hfresh.empty]
      rfl

theorem Showing.reopen {p : MkfsParams} {log : List FuseEntry} {w : Volume D}
    (h : Showing p log v) (hsmall : p.Small) (hopen : Opens v.disk w) : Showing p log w := by
  obtain ⟨hfits, hcheck⟩ := h.formed.openable hsmall
  obtain ⟨nodes, hsound⟩ := h.formed.sound
  obtain ⟨-, hview⟩ := hsound.mounted.opens hsound.valid hfits hcheck hopen
  have hsound' := hsound.opens hfits hcheck hopen
  have htree : treeOf w = treeOf v := hsound.tree_same hsound' (fun j hj => by
    rw [hview]
    exact Kept.refl hj) (fun _ _ => rfl)
  refine ⟨h.formed.reopen hsmall hopen, ?_, ?_⟩
  · rw [hview]
    exact h.plain
  · rw [htree]
    exact h.tree

/-- The logs of the driver are logs of the tree. -/
theorem FuseRun.showing {p : MkfsParams} {dev : D} {log : List FuseEntry} (hsmall : p.Small)
    (h : FuseRun p dev log v) : Showing p log v := by
  induction h with
  | opened hformat hopen =>
      obtain ⟨haccepted, w, rfl, hw, hcore, nodes, hfresh⟩ := format_leaves hsmall hformat
      have hL := hsmall.valid haccepted.shift haccepted.fits
      have hcount : w.sb.mountCount = 0 := congrArg Superblock.mountCount hcore
      have hsound : Sound p.layout w nodes := ⟨hL, hw, hfresh.inventory⟩
      have hformed : Formed p w := ⟨haccepted, ⟨nodes, hsound⟩, uncounted_of_core hcore,
        by rw [hcount]; decide⟩
      have hshowing : Showing p [] w := ⟨hformed, hfresh.plain, by
        rw [hsound.tree_fresh hfresh]
        exact TreeRun.start⟩
      exact hshowing.reopen hsmall hopen
  | reopened _ hopen ih => exact ih.reopen hsmall hopen
  | step _ hcred hfits hfound hexec ih =>
      obtain ⟨nodes, hsound⟩ := ih.formed.sound
      obtain ⟨a', w, nodes', hrun, hstays, hstep⟩ := hsound.meets ih.plain hcred hfits hfound
      rw [hexec] at hrun
      cases hrun
      refine ⟨⟨ih.formed.accepted, ⟨nodes', hstays.sound⟩, ?_, ?_⟩, hstays.plain,
        TreeRun.step ih.tree hstep⟩
      · rw [← ih.formed.superblock, Superblock.uncounted, hstays.core, Superblock.uncounted]
      · have hcount := congrArg Superblock.mountCount hstays.core
        exact lt_of_eq_of_lt hcount ih.formed.mountCount

/-- A fresh volume, as a witness of runs. -/
theorem tiny_fuse : ∃ (v : Volume MemoryDisk) (nodes : Nat → Node),
    FuseRun (tinyParams 114) ⟨fun _ => 0⟩ [] v ∧ Sound (tinyParams 114).layout v nodes ∧
      Plain (tinyParams 114).layout v.view ∧ treeOf v = bareTree := by
  obtain ⟨v, nodes, hreach, hsound, hfresh⟩ := tiny_opens (fun _ _ => False) (Or.inl rfl)
    (⟨fun _ => 0⟩ : MemoryDisk)
  refine ⟨v, nodes, ?_, hsound, hfresh.plain, hsound.tree_fresh hfresh⟩
  cases hreach with
  | opened hformat hopen => exact FuseRun.opened hformat hopen
  | step _ _ _ _ hallowed => exact hallowed.elim

/-- The root directory is shown to everyone. -/
theorem bareTree_shows (cred : Cred) : ShowsAt bareTree cred (cutComponents [47])
    (newObject nyfsRootIno true 0o755 ⟨0, 0⟩) :=
  ⟨Function.update_self .., fun _ _ hq hne _ => absurd (List.prefix_nil.mp hq) hne⟩

/-- In every run a directory that may be read is listed without a gap and without a repetition,
however the listing is cut into calls: itself, its parent, and each object below it once. -/
theorem fuse_lists_once {p : MkfsParams} {dev : D} {log : List FuseEntry} (hsmall : p.Small)
    (h : FuseRun p dev log v) {path : List UInt8} {o : Object}
    (hshows : ShowsAt (treeOf v) cred (cutComponents path) o) (hdir : o.isDir = true)
    (hgrants : o.Grants cred nyfsAceReadData) :
    ∃ children, Fuse.Lists (treeOf v) (cutComponents path) children ∧
      ∀ rooms : List Nat, readdirPieces path cred 0 rooms v =
        (.ok ((Fuse.listing o children).take rooms.sum), v) := by
  have hshowing := h.showing hsmall
  obtain ⟨nodes, hsound⟩ := hshowing.formed.sound
  rcases hsound.resolve_cases hshowing.plain path with
    ⟨k, hres, hwalk, hshows'⟩ | ⟨e, -, hno⟩
  swap
  · exact absurd hshows (hno o)
  obtain rfl : objectOf v k = o := Option.some.inj (hshows'.object.symm.trans hshows.object)
  have hlive := hsound.walk_live hwalk
  refine ⟨childrenOf v (nodes k), hsound.lists_children hwalk, fun rooms => ?_⟩
  have hrun := hsound.readdirPieces_run hres hlive ((hsound.object_isDir hlive).mp hdir)
    ((hsound.object_grants hshowing.plain hlive _).mp hgrants) 0 rooms
  rwa [List.drop_zero] at hrun

/-- The root directory of a fresh volume is listed in three calls. -/
theorem fuse_lists_once_tiny : ∃ v : Volume MemoryDisk, FuseRun (tinyParams 114) ⟨fun _ => 0⟩ [] v ∧
    readdirPieces [47] ⟨0, 0⟩ 0 [1, 1, 1] v =
      (.ok (Fuse.listing (newObject nyfsRootIno true 0o755 ⟨0, 0⟩) []), v) := by
  obtain ⟨v, nodes, hrun, hsound, hplain, htree⟩ := tiny_fuse
  have hshows := bareTree_shows ⟨0, 0⟩
  rw [← htree] at hshows
  obtain ⟨children, hlists, hpieces⟩ := fuse_lists_once ⟨by decide, by decide⟩ hrun
    hshows rfl (by decide)
  have hnone : children = [] := by
    refine List.eq_nil_iff_forall_not_mem.mpr (fun child hchild => ?_)
    have hobject := (hlists.mem child.1 child.2).mp hchild
    rw [htree] at hobject
    cases hobject
  rw [hnone] at hpieces
  exact ⟨v, hrun, hpieces [1, 1, 1]⟩

end Nyfs
end Nyxis
