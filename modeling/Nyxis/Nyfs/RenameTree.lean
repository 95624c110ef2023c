import Nyxis.Lib.Moved
import Nyxis.Vfs.Frame
import Nyxis.Nyfs.CacheAnswers

/-!
# Renames and the tree of directories

The driver only refuses to move a directory into itself.  A deeper circle is refused above it: the
dentries from the root to the new directory are all cached, so a directory that is above the new one is
found among them.

Main results:

- Theorem {lit}`Coherent.above_of_reaches`: what is above a cached directory on the volume is cached.
- Theorem {lit}`rename_closes_no_circle`: a rename moves nothing below itself, and cuts nothing off.
-/

namespace Nyxis
namespace Nyfs

open Relation (ReflTransGen)
open Vfs (VfsState Drivers Name cachedChild Framed OnDrivers)

variable {D : Type} [ReliableDevice D] {L : Layout} {v v' : Volume D} {nodes nodes' : Nat → Node}
variable {k r : Nat} {s s' : VfsState (NyfsState D)} {kids : Nat → List Nat} {ino : Nat → Nat}
variable {cred : Cred} {i j t o q : Nat} {oldName newName name : Name}

/-! ## Names on the volume -/

/-- One inode is a directory that holds the other one. -/
def Holds (v : Volume D) (i j : Nat) : Prop :=
  ∃ name type, (lookupName i name v).1 = .ok (j, type)

theorem found_iff : Found v j ↔ ReflTransGen (Holds v) nyfsRootIno j := by
  constructor
  · intro h
    induction h with
    | root => exact ReflTransGen.refl
    | child _ hlookup ih => exact ih.tail ⟨_, _, hlookup⟩
  · intro h
    induction h with
    | refl => exact Found.root
    | tail _ hstep ih =>
        obtain ⟨name, type, hlookup⟩ := hstep
        exact Found.child ih hlookup

theorem Sound.holds_iff (h : Sound L v nodes) (hi : Live L v.view i) :
    Holds v i j ↔ ∃ name type, (nodes i).find name = some (j, type) := by
  constructor
  · rintro ⟨name, type, hlookup⟩
    rw [h.lookupName hi] at hlookup
    split at hlookup
    next =>
      rcases (nodes i).lookup_cases name with ⟨e, he, -⟩ | ⟨found, hok, -, hfind⟩
      · rw [he] at hlookup
        cases hlookup
      · rw [hok] at hlookup
        cases hlookup
        exact ⟨name, type, hfind⟩
    next => cases hlookup
  · rintro ⟨name, type, hfind⟩
    obtain ⟨htype, hname⟩ := h.held hi hfind
    refine ⟨name, type, ?_⟩
    rw [h.lookup_find hi htype hname, hfind]
    rfl

theorem Sound.live_of_reaches (h : Sound L v nodes) (hi : Live L v.view i)
    (hreach : ReflTransGen (Holds v) i j) : Live L v.view j := by
  induction hreach with
  | refl => exact hi
  | tail _ hstep ih =>
      obtain ⟨name, type, hfind⟩ := (h.holds_iff ih).mp hstep
      exact (h.inventory.target_of_find ih hfind).1

/-- A rename that succeeds gives one inode another directory. -/
theorem RenameOutcome.moves (hsound : Sound L v nodes) (hsound' : Sound L v' nodes') (ho : Found v o)
    (hq : Found v q)
    (h : RenameOutcome L v.view nodes o oldName q newName cred v'.view nodes' (.ok ())) :
    ∃ t type, (nodes o).find oldName = some (t, type) ∧
      Moved (Holds v) (Holds v') nyfsRootIno t q := by
  have hlive : ∀ {a}, Found v a → Live L v.view a := fun ha =>
    ha.live hsound.valid hsound.mounted hsound.inventory
  have hreached : ∀ {t type : Nat}, (nodes o).find oldName = some (t, type) →
      ReflTransGen (Holds v) nyfsRootIno t := fun hfind =>
    (found_iff.mp ho).tail ((hsound.holds_iff (hlive ho)).mpr ⟨_, _, hfind⟩)
  cases h with
  | same heq found hfind hview hnodes =>
      have hsame : ∀ a b, Found v a → (Holds v' a b ↔ Holds v a b) := by
        intro a b ha
        rw [hsound.holds_iff (hlive ha), hsound'.holds_iff (by rw [hview]; exact hlive ha), hnodes]
      refine ⟨found.1, found.2, hfind, hreached hfind, ?_, ?_, ?_⟩
      · exact fun a b ha hab _ => (hsame a b (found_iff.mpr ha)).mpr hab
      · rw [← heq.1, hsame o _ ho, hsound.holds_iff (hlive ho)]
        exact ⟨_, _, hfind⟩
      · exact fun a b ha hab => Or.inl ((hsame a b (found_iff.mpr ha)).mp hab)
  | moved found hstarts hroom hsteady hfinds =>
      have hlive' : ∀ {a}, Found v a → Live L v'.view a := fun ha => (hsteady.kept _ (hlive ha)).live
      refine ⟨found.1, found.2, hstarts.find, hreached hstarts.find, ?_, ?_, ?_⟩
      · intro a b ha hab hne
        have hfound := found_iff.mpr ha
        obtain ⟨name, type, hfind⟩ := (hsound.holds_iff (hlive hfound)).mp hab
        refine (hsound'.holds_iff (hlive' hfound)).mpr ⟨name, type, ?_⟩
        rw [hfinds, moveFind_of_ne _ found, hfind]
        · rintro ⟨rfl, rfl⟩
          rw [hstarts.find] at hfind
          exact hne (congrArg Prod.fst (Option.some.inj hfind)).symm
        · rintro ⟨rfl, rfl⟩
          rw [hstarts.absent] at hfind
          cases hfind
      · refine (hsound'.holds_iff (hlive' hq)).mpr ⟨newName, found.2, ?_⟩
        rw [hfinds, moveFind_self]
      · intro a b ha hab
        have hfound := found_iff.mpr ha
        obtain ⟨name, type, hfind⟩ := (hsound'.holds_iff (hlive' hfound)).mp hab
        rw [hfinds] at hfind
        by_cases hnew : a = q ∧ name = newName
        · rw [hnew.1, hnew.2, moveFind_self] at hfind
          exact Or.inr (congrArg Prod.fst (Option.some.inj hfind)).symm
        · by_cases hold : a = o ∧ name = oldName
          · rw [hold.1, hold.2, moveFind_old _ found hstarts.moves] at hfind
            cases hfind
          · rw [moveFind_of_ne _ found hold hnew] at hfind
            exact Or.inl ((hsound.holds_iff (hlive hfound)).mpr ⟨name, type, hfind⟩)

/-- Where a path leads is found. -/
theorem Sound.found_of_diskParent (h : Sound L v nodes) (fuel : Nat) {cursor : List UInt8}
    (hi : Found v i) (hdisk : diskParentLoop v fuel i cursor = some (j, name)) : Found v j := by
  induction fuel generalizing i cursor with
  | zero => cases hdisk
  | succ fuel ih =>
      rw [diskParentLoop] at hdisk
      split at hdisk
      next => cases hdisk
      next =>
        split at hdisk
        next => cases hdisk
        next component rest _ =>
          split at hdisk
          next => cases hdisk
          next =>
            split at hdisk
            next =>
              cases hdisk
              exact hi
            next =>
              split at hdisk
              next => cases hdisk
              next t x hlookup =>
                have hlive := hi.live h.valid h.mounted h.inventory
                obtain ⟨hans, -⟩ := (h.lookupNode_eq_ok hlive).mp hlookup
                obtain ⟨type, hfind⟩ := hans.find
                exact ih (h.found_child hi hans.dir hans.nameOk hfind) hdisk

/-! ## The dentries above a directory -/

/-- What is above a cached dentry on the volume has a dentry above it. -/
theorem Coherent.above_of_reaches (h : Coherent k L r s kids ino nodes)
    (ht : Live L (s.drv.fs.volumes k).view t)
    (hreach : ReflTransGen (Holds (s.drv.fs.volumes k)) t j) {d : Nat} (hd : Cached kids r d)
    (hj : ino d = j) : ∃ e, Cached kids r e ∧ ino e = t ∧ Vfs.Above s.dentries e d := by
  induction hreach generalizing d with
  | refl => exact ⟨d, hd, hj, Vfs.Above.self⟩
  | @tail a b ha hstep ih =>
      have hlive := h.volume.live_of_reaches ht ha
      obtain ⟨name, type, hfind⟩ := (h.volume.holds_iff hlive).mp hstep
      rcases hd with rfl | ⟨p, hp⟩
      · have hroot := (h.volume.inventory.target_of_find hlive hfind).2.1
        rw [h.top] at hj
        exact absurd hj.symm hroot
      · -- the cached parent is the only directory that holds the inode
        obtain ⟨hpc, type', hfind'⟩ := h.entry p d hp
        rw [hj] at hfind'
        obtain ⟨hino, -⟩ := h.volume.inventory.find_once (h.live hpc) hlive hfind' hfind
        obtain ⟨e, he, hino', habove⟩ := ih hpc hino
        exact ⟨e, he, hino', Vfs.Above.step (h.tree.tree.parent p d hp) habove⟩

/-- A rename that passes the check for circles moves nothing above its new directory. -/
theorem Coherent.not_reaches (h : Coherent k L r s kids ino nodes) {p d type : Nat}
    (hp : Cached kids r p) (hd : Cached kids r d)
    (hfind : (nodes (ino p)).find oldName = some (t, type))
    (hpass : ∀ c, cachedChild s.dentries p oldName = some c → ¬Vfs.Above s.dentries c d) :
    ¬ReflTransGen (Holds (s.drv.fs.volumes k)) t (ino d) := by
  intro hreach
  have ht := (h.volume.inventory.target_of_find (h.live hp) hfind).1
  obtain ⟨e, he, hino, habove⟩ := h.above_of_reaches ht hreach hd rfl
  obtain ⟨hmem, hname⟩ := h.cached_of_find hp hfind he hino
  refine hpass e ?_ habove
  rw [← hname]
  exact h.cachedChild_of_mem hmem

/-! ## Renaming -/

omit [ReliableDevice D] in
/-- The driver state, as the updates of the dentries leave it. -/
theorem framed_fs : Framed (fun _ => ⟨none, none, none, none, none, none, none, none, none, none, none⟩)
    (fun a b : Drivers (NyfsState D) => b.fs = a.fs) where
  refl _ := rfl
  trans _ _ _ h h' := h'.trans h
  freeVnode node := by
    cases node with
    | none => exact fun _ => rfl
    | some n => exact fun _ => rfl
  lookup _ _ := nofun
  read _ _ := nofun
  write _ _ := nofun
  stat _ _ := nofun
  create _ _ := nofun
  mkdir _ _ := nofun
  unlink _ _ := nofun
  readdir _ _ := nofun
  rename _ _ := nofun

/-- What two local paths name on the volume before and after a rename: the object is not above its new
directory, neither before nor after, and every inode that was found is found. -/
def MovesSafely (v v' : Volume D) (oldLocal newLocal : List UInt8) : Prop :=
  ∃ o oldName q newName t type, diskParent v oldLocal = some (o, oldName) ∧
    diskParent v newLocal = some (q, newName) ∧ (lookupName o oldName v).1 = .ok (t, type) ∧
    ¬ReflTransGen (Holds v) t q ∧ ¬ReflTransGen (Holds v') t q ∧ ∀ j, Found v j → Found v' j

/-- The part of {lit}`vfs_rename` behind the two directories. -/
theorem Coherent.rename_moves {p d n : Nat} {oldLocal newLocal : List UInt8}
    (h : Coherent k L r s kids ino nodes) (hp : Cached kids r p) (hd : Cached kids r d)
    (hn : (s.dentries p).node = some n)
    (hold : diskParent (s.drv.fs.volumes k) oldLocal = some (ino p, oldName))
    (hnew : diskParent (s.drv.fs.volumes k) newLocal = some (ino d, newName)) :
    Eff.Post (renameIn p d n oldName newName) s (fun res s' => res = .ok () →
        MovesSafely (s.drv.fs.volumes k) (s'.drv.fs.volumes k) oldLocal newLocal) := by
  obtain ⟨-, n', hn', hstands⟩ := h.shows p hp
  obtain rfl : n = n' := Option.some.inj (hn.symm.trans hn')
  obtain ⟨-, m, hm, hstands'⟩ := h.shows d hd
  refine Eff.post_bind_ok (h.tree.tree.findChild_run p oldName) ?_
  rcases Vfs.checkNoCycle_run (cachedChild s.dentries p oldName) d s with
    ⟨stop, hfail⟩ | ⟨hpass, hnoCycle⟩
  · refine Eff.post_bind_error hfail (fun hcon => ?_)
    cases hcon
  refine Eff.post_bind_ok hpass (Eff.post_gets_bind ?_)
  rw [hm]
  obtain ⟨nodes', hsound, hout⟩ := h.volume.renameNode_step (h.live hp) (h.live hd) oldName newName
    s.drv.fs.cred
  have hcall : Vfs.callDriver (nyfsRename n oldName (some m) newName) s =
      ((Nyfs.renameNode (ino p) oldName (ino d) newName s.drv.fs.cred (s.drv.fs.volumes k)).1,
        { s with drv := Nyfs.withVolume s.drv k (Nyfs.renameNode (ino p) oldName (ino d) newName
          s.drv.fs.cred (s.drv.fs.volumes k)).2 }) := by
    rw [Vfs.callDriver, nyfsRename_run hstands.vnodeOf hstands'.vnodeOf oldName newName, onVolume_eq]
  cases hrename : Nyfs.renameNode (ino p) oldName (ino d) newName s.drv.fs.cred
      (s.drv.fs.volumes k) with
  | mk res v' =>
      rw [hrename] at hcall hsound hout
      dsimp only at hcall hsound hout
      cases res with
      | error e =>
          refine Eff.post_bind_error hcall (fun hcon => ?_)
          cases hcon
      | ok u =>
          have hfoundOld := h.volume.found_of_diskParent _ Found.root hold
          have hfoundNew := h.volume.found_of_diskParent _ Found.root hnew
          obtain ⟨t, type, hfind, hmoved⟩ := hout.moves h.volume hsound hfoundOld hfoundNew
          have hno := h.not_reaches hp hd hfind hnoCycle
          obtain ⟨htype, hname⟩ := h.volume.held (h.live hp) hfind
          have hlookup : (lookupName (ino p) oldName (s.drv.fs.volumes k)).1 = .ok (t, type) := by
            rw [h.volume.lookup_find (h.live hp) htype hname, hfind]
            rfl
          have hsafe : MovesSafely (s.drv.fs.volumes k) v' oldLocal newLocal := by
            refine ⟨ino p, oldName, ino d, newName, t, type, hold, hnew, hlookup, hno,
              hmoved.not_below hno, fun j hj => ?_⟩
            exact found_iff.mpr (hmoved.reaches (found_iff.mp hfoundNew) hno (found_iff.mp hj))
          refine Eff.post_bind_ok hcall ?_
          have hkept : ∀ {m : Vfs.VfsM (NyfsState D) Unit},
              Eff.Moves (OnDrivers (fun a b : Drivers (NyfsState D) => b.fs = a.fs)) m →
              Eff.Post m { s with drv := Nyfs.withVolume s.drv k v' } (fun res s' => res = .ok () →
                MovesSafely (s.drv.fs.volumes k) (s'.drv.fs.volumes k) oldLocal newLocal) := by
            intro m hmoves _
            have hfs := hmoves { s with drv := Nyfs.withVolume s.drv k v' }
            rw [← withVolume_self s.drv k v'] at hsafe
            exact (congrArg (fun fs => MovesSafely (s.drv.fs.volumes k) (NyfsState.volumes fs k) oldLocal
              newLocal) hfs).mpr hsafe
          -- what follows only updates the dentries
          have hF := framed_fs (D := D)
          refine hkept (hF.bind (hF.findChild _ _) (fun existingNew => ?_))
          cases cachedChild s.dentries p oldName with
          | none =>
              cases existingNew with
              | none => exact hF.pure _
              | some e => exact hF.bind (hF.dropDentry _ _) (fun _ => hF.pure _)
          | some c =>
              cases existingNew with
              | none => exact hF.moveDentry _ _ _ _
              | some e => exact hF.bind (hF.dropDentry _ _) (fun _ => hF.moveDentry _ _ _ _)

/-- A rename that succeeds moves nothing above its new directory and cuts nothing off from the
root. -/
theorem rename_closes_no_circle {oldBuffer newBuffer oldPath newPath : List UInt8}
    (h : Coherent k L r s kids ino nodes)
    (hrun : Vfs.vfsRename nyfsDrivers oldBuffer newBuffer oldPath newPath s = (.ok (), s')) :
    ∃ ns oldLocal newLocal, Vfs.namespaceOf s oldBuffer oldPath = some (ns, oldLocal) ∧
      Vfs.namespaceOf s newBuffer newPath = some (ns, newLocal) ∧
      MovesSafely (s.drv.fs.volumes k) (s'.drv.fs.volumes k) oldLocal newLocal := by
  have hpost : Eff.Post (Vfs.vfsRename nyfsDrivers oldBuffer newBuffer oldPath newPath) s
      (fun res s' => res = .ok () → ∃ ns oldLocal newLocal,
        Vfs.namespaceOf s oldBuffer oldPath = some (ns, oldLocal) ∧
        Vfs.namespaceOf s newBuffer newPath = some (ns, newLocal) ∧
        MovesSafely (s.drv.fs.volumes k) (s'.drv.fs.volumes k) oldLocal newLocal) := by
    refine h.vfsRename_rule (fun _ _ _ => nofun) ?_
    intro p q n oldName newName s₂ kids₂ ino₂ ns oldLocal newLocal hplaces
    have hgrown := hplaces.grown
    have hold := hplaces.oldDisk
    have hnew := hplaces.newDisk
    rw [← hgrown.volumes] at hold hnew
    refine Eff.post_mono (hgrown.coherent.rename_moves hplaces.oldCached hplaces.newCached hplaces.node
      hold hnew) ?_
    intro res s' hmoves hok
    have hsafe := hmoves hok
    rw [hgrown.volumes] at hsafe
    exact ⟨ns, oldLocal, newLocal, hplaces.oldSpace, hplaces.newSpace, hsafe⟩
  rw [Eff.Post, hrun] at hpost
  exact hpost rfl

/-- The root directory of a small volume with one file has room for another short name. -/
theorem OneFile.rename_starts {V : View} (h : OneFile (tinyParams 114).layout V nodes [97]) :
    RenameStarts V nodes nyfsRootIno [97] nyfsRootIno [98] ⟨0, 0⟩ (2, nyfsDirentTypeFile) ∧
      (nodes nyfsRootIno).HasRoom (tinyParams 114).layout V [98] := by
  have hne : ([98] : List UInt8) ≠ [97] := by decide
  refine ⟨⟨h.rootType, h.rootType, Or.inl rfl, Or.inl rfl, nameOk_a, ?_, ?_, ?_, ⟨by decide, by decide⟩,
    ?_⟩, Or.inl ?_⟩
  · rw [h.find, Function.update_self]
  · rintro ⟨-, heq⟩
    exact hne heq.symm
  · rintro ⟨htype, -⟩
    exact absurd htype (by decide)
  · rw [h.find, Function.update_of_ne hne]
  · rw [h.rootFree, h.rootCapacity]
    decide

/-- The file of a small volume is given another name. -/
theorem rename_closes_no_circle_tiny : ∃ (v : Volume MemoryDisk) (s' : VfsState (NyfsState MemoryDisk)),
    Reachable anyRequest (tinyParams 114) ⟨fun _ => 0⟩ v ∧
      Vfs.vfsRename nyfsDrivers [] [] [47, 97] [47, 98] (freshMount v) = (.ok (), s') ∧
      ∃ ns oldLocal newLocal, Vfs.namespaceOf (freshMount v) [] [47, 97] = some (ns, oldLocal) ∧
        Vfs.namespaceOf (freshMount v) [] [47, 98] = some (ns, newLocal) ∧
        MovesSafely ((freshMount v).drv.fs.volumes 0) (s'.drv.fs.volumes 0) oldLocal newLocal := by
  have hname : OneComponent [97] := ⟨nameOk_a, by decide⟩
  have hnew : OneComponent [98] := ⟨⟨by decide, by decide⟩, by decide⟩
  obtain ⟨v, nodes, hreach, hsound, hfile⟩ := tiny_file (D := MemoryDisk) anyRequest (Or.inl rfl)
    ⟨fun _ => 0⟩ nameOk_a (fun _ => trivial)
  obtain ⟨hstarts, hroom⟩ := hfile.rename_starts
  have hcoherent := coherent_freshMount hsound
  obtain ⟨-, n, hnode, hstands⟩ := hcoherent.shows 0 (Or.inl rfl)
  have hlive := hsound.inventory.root.1
  obtain ⟨nodes', -, hout⟩ := hsound.renameNode_step hlive hlive [97] [98] ⟨0, 0⟩
  cases hrename : renameNode nyfsRootIno [97] nyfsRootIno [98] ⟨0, 0⟩ v with
  | mk res v' =>
      rw [hrename] at hout
      dsimp only at hout
      obtain rfl : res = .ok () := by
        cases hout with
        | failed e hno => exact absurd hstarts (hno _)
        | same heq => exact absurd heq hstarts.moves
        | moved => rfl
        | restored found _ hno => exact absurd hroom hno
        | lost found _ hno => exact absurd hroom hno
      have hcall : Vfs.callDriver (nyfsRename n [97] (some n) [98]) (freshMount v) =
          (.ok (), { freshMount v with drv := withVolume (freshMount v).drv 0 v' }) := by
        have hvolume : renameNode nyfsRootIno [97] nyfsRootIno [98] (freshMount v).drv.fs.cred
            ((freshMount v).drv.fs.volumes 0) = (.ok (), v') := hrename
        rw [Vfs.callDriver, nyfsRename_run hstands.vnodeOf hstands.vnodeOf [97] [98], onVolume_eq, hvolume]
      have hrun : Vfs.vfsRename nyfsDrivers [] [] [47, 97] [47, 98] (freshMount v) =
          (.ok (), { freshMount v with drv := withVolume (freshMount v).drv 0 v' }) := by
        rw [hcoherent.vfsRename_atRoot (atBoot_freshMount v) hname hnew hnode, renameIn,
          Eff.bind_ok (hcoherent.tree.tree.findChild_run 0 [97])]
        have hnone : cachedChild (freshMount v).dentries 0 [97] = none := rfl
        have hpass : Vfs.checkNoCycle none 0 (freshMount v) = (.ok (), freshMount v) := rfl
        rw [hnone, Eff.bind_ok hpass, Eff.gets_bind_run, hnode, Eff.bind_ok hcall]
        rfl
      exact ⟨v, _, hreach, hrun, rename_closes_no_circle hcoherent hrun⟩

end Nyfs
end Nyxis
