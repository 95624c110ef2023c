import Nyxis.Nyfs.CacheRuns

/-!
# What the cache answers

After every run of safe calls, a path that resolves to a vnode resolves to the inode that lookups on
the volume lead to.  A volume at the root of the default namespace, and names in its root directory,
show that the conditions are needed.

Main results:

- Theorem {lit}`mountRoot_boot`: a volume is mounted at the root.
- Theorem {lit}`Coherent.resolve_name`: resolving a name in the root directory.
- Theorem {lit}`cache_shows_volume`: the cache answers as the volume does.
-/

namespace Nyxis
namespace Nyfs

open Vfs (VfsState Drivers Handle Name cachedChild)

variable {D : Type} [ReliableDevice D] {L : Layout} {v v' : Volume D} {nodes nodes' : Nat → Node}
variable {k r : Nat} {s s' : VfsState (NyfsState D)} {drv drv' : Drivers (NyfsState D)}
variable {kids : Nat → List Nat} {ino : Nat → Nat} {cred : Cred} {name : Name} {d n t : Nat}

/-! ## A volume at the root -/

/-- A volume at the root of the default namespace, and no other dentry. -/
def atRoot (drv : Drivers (NyfsState D)) (n : Nat) : VfsState (NyfsState D) :=
  (Vfs.setDentry 0 (fun e => { e with node := some n }) (Vfs.vfsInit (Vfs.boot drv)).2).2

theorem vfsMount_boot (drv : Drivers (NyfsState D)) (n : Nat) :
    Vfs.vfsMount nyfsDrivers [] [47] n (Vfs.vfsInit (Vfs.boot drv)).2 = (.ok (), atRoot drv n) :=
  rfl

/-- {lit}`nyfs_mount` at the root, right behind {lit}`vfs_init`. -/
theorem mountRoot_boot {slot : Nat} (hn : freeVnodeSlot drv = some n)
    (hslot : freeDataSlot drv = some slot) :
    mountRoot nyfsDrivers k [] [47] (Vfs.vfsInit (Vfs.boot drv)).2 =
      (.ok (), atRoot (withVnode drv n slot k nyfsRootIno 2) n) := by
  rcases makeVnode_cases drv k nyfsRootIno 2 with ⟨m, slot', hm, hslot', hmake⟩ | ⟨hno, -⟩
  · obtain rfl : n = m := Option.some.inj (hn.symm.trans hm)
    obtain rfl : slot = slot' := Option.some.inj (hslot.symm.trans hslot')
    have hcall : Vfs.callDriver (makeVnode k nyfsRootIno 2) (Vfs.vfsInit (Vfs.boot drv)).2 =
        (.ok (some n), (Vfs.vfsInit (Vfs.boot (withVnode drv n slot k nyfsRootIno 2))).2) := by
      rw [Vfs.callDriver, show (Vfs.vfsInit (Vfs.boot drv)).2.drv = drv from rfl, hmake]
      rfl
    rw [mountRoot, Eff.bind_ok hcall]
    dsimp only
    rw [Eff.bind_ok (a := .ok ()) (by rw [Eff.attempt, vfsMount_boot])]
    rfl
  · rcases hno with hno | hno
    · rw [show freeVnodeSlot drv = none from hno] at hn
      cases hn
    · rw [show freeDataSlot drv = none from hno] at hslot
      cases hslot

/-- The cache of a volume at the root. -/
theorem coherent_atRoot {slot : Nat} (hsound : Sound L (drv.fs.volumes k) nodes)
    (hcred : drv.fs.cred.Fits) :
    Coherent k L 0 (atRoot (withVnode drv n slot k nyfsRootIno 2) n) (fun _ => [])
      (fun _ => nyfsRootIno) nodes := by
  have htype : vnodeType ((drv.fs.volumes k).view.inode nyfsRootIno) = 2 :=
    if_pos hsound.inventory.root.2
  have hstands := stands_withVnode drv n slot k nyfsRootIno
  rw [htype] at hstands
  have hspace : ((Vfs.vfsInit (Vfs.boot (withVnode drv n slot k nyfsRootIno 2))).2.namespaces 0).inUse :=
    rfl
  exact (bare_vfsInit _).coherent_mounted hspace hstands hsound hcred

/-- The drivers before the first mount: empty pools, and the process of the superuser. -/
def freshDrivers (v : Volume D) : Drivers (NyfsState D) where
  vnodes := fun _ => Vfs.Vnode.zero
  fs :=
    { volumes := fun _ => v
      vnodeData := fun _ => ⟨false, VnodeData.zero⟩
      handleSlots := fun _ => ⟨false, VnodeData.zero⟩
      cred := ⟨0, 0⟩ }

/-- A volume that is mounted at the root of a fresh system. -/
def freshMount (v : Volume D) : VfsState (NyfsState D) :=
  atRoot (withVnode (freshDrivers v) 0 0 0 nyfsRootIno 2) 0

theorem superuser_fits : (⟨0, 0⟩ : Cred).Fits :=
  ⟨by decide, by decide⟩

theorem coherent_freshMount (hsound : Sound L v nodes) :
    Coherent 0 L 0 (freshMount v) (fun _ => []) (fun _ => nyfsRootIno) nodes :=
  coherent_atRoot hsound superuser_fits

/-- A fresh system is one of the systems that runs start from. -/
theorem cacheRun_freshMount {p : MkfsParams} {dev : D} (hvolume : Reachable anyRequest p dev v)
    (ok : VfsState (NyfsState D) → MountCall → Prop) : CacheRun p dev 0 ok (freshMount v) := by
  have hmount : mountRoot nyfsDrivers 0 [] [47] (Vfs.vfsInit (Vfs.boot (freshDrivers v))).2 =
      (.ok (), freshMount v) := mountRoot_boot rfl rfl
  exact CacheRun.start hvolume superuser_fits rfl rfl hmount

/-- A name that is one component of a path. -/
structure OneComponent (name : Name) : Prop where
  nameOk : NameOk name
  noSlash : Vfs.slash ∉ name

theorem OneComponent.ne_nil (h : OneComponent name) : name ≠ [] := by
  rintro rfl
  exact absurd h.nameOk.pos (by decide)

theorem OneComponent.parseSegment (h : OneComponent name) :
    Vfs.parseSegment name = .ok (name, []) := by
  have hne : ∀ b ∈ name, b ≠ Vfs.slash := by
    rintro b hb rfl
    exact h.noSlash hb
  have hskip : Vfs.skipSlashes name = name := by
    cases name with
    | nil => rfl
    | cons b rest =>
        rw [Vfs.skipSlashes, List.dropWhile_cons_of_neg]
        simpa using hne b List.mem_cons_self
  have htake : name.takeWhile (fun b => decide (b ≠ Vfs.slash)) = name :=
    List.takeWhile_eq_self_iff.mpr (fun b hb => by simpa using hne b hb)
  have hdrop : name.dropWhile (fun b => decide (b ≠ Vfs.slash)) = [] :=
    List.dropWhile_eq_nil_iff.mpr (fun b hb => by simpa using hne b hb)
  rw [Vfs.parseSegment, hskip, if_neg h.ne_nil, htake, hdrop]
  have hle := h.nameOk.le
  dsimp only
  rw [if_neg]
  · rfl
  · have hmax : nyfsNameMax = Vfs.vfsNameMax := rfl
    omega

/-- The default namespace is the first one, and its root is the first dentry. -/
structure AtBoot (s : VfsState (NyfsState D)) : Prop where
  default_eq : s.defaultNamespace = some 0
  root : (s.namespaces 0).root = 0

omit [ReliableDevice D] in
theorem atBoot_freshMount (v : Volume D) : AtBoot (freshMount v) :=
  ⟨rfl, rfl⟩

omit [ReliableDevice D] in
theorem AtBoot.namespaceOf (h : AtBoot s) (name : Name) :
    Vfs.namespaceOf s [] (47 :: name) = some (0, 47 :: name) := by
  rw [Vfs.namespaceOf]
  change (Vfs.lookupNamespace s []).map _ = _
  rw [Vfs.lookupNamespace, if_pos rfl, h.default_eq]
  rfl

omit [ReliableDevice D] in
theorem AtBoot.resolveNamespacePath (h : AtBoot s) (name : Name) :
    Vfs.resolveNamespacePath [] (47 :: name) false s = (.ok (0, 47 :: name), s) := by
  have hspace := h.namespaceOf name
  rcases Vfs.resolveNamespacePath_run [] (47 :: name) s with ⟨e, hrun⟩ | ⟨ns, localPath, hns, hrun⟩
  · change (Vfs.getNamespace [] false >>= _) s = _ at hrun
    rw [Eff.bind_ok (Vfs.getNamespace_false_run [] s), Vfs.lookupNamespace, if_pos rfl,
      h.default_eq] at hrun
    cases hrun
  · rw [hspace] at hns
    cases hns
    exact hrun

/-- The directory of a name in the root. -/
theorem AtBoot.resolveParentNs (h : AtBoot s) (hname : OneComponent name) :
    Vfs.resolveParentNs nyfsDrivers 0 (47 :: name) s = (.ok (0, name), s) := by
  have hlen := List.length_pos_of_ne_nil hname.ne_nil
  rw [Vfs.resolveParentNs, Eff.gets_bind_run]
  change (Vfs.parentLoop nyfsDrivers name.length (s.namespaces 0).root name >>= _) s = _
  obtain ⟨fuel, hfuel⟩ := Nat.exists_eq_succ_of_ne_zero hlen.ne'
  rw [hfuel, Vfs.parentLoop, if_neg hname.ne_nil, hname.parseSegment, h.root]
  dsimp only
  rw [if_neg hname.ne_nil]
  rfl

/-- Resolving a name in the root is one step from it. -/
theorem AtBoot.resolvePathInternal (h : AtBoot s) (hname : OneComponent name) :
    Vfs.resolvePathInternal nyfsDrivers [] (47 :: name) s =
      Vfs.childStep nyfsDrivers .NfileNotFound 0 name s := by
  have hlen := List.length_pos_of_ne_nil hname.ne_nil
  rw [Vfs.resolvePathInternal, Eff.bind_ok (h.resolveNamespacePath name)]
  dsimp only
  rw [Vfs.resolvePathInternalNs, Eff.gets_bind_run]
  change Vfs.resolveLoop nyfsDrivers name.length (s.namespaces 0).root name s = _
  obtain ⟨fuel, hfuel⟩ := Nat.exists_eq_succ_of_ne_zero hlen.ne'
  rw [hfuel, Vfs.resolveLoop, if_neg hname.ne_nil, hname.parseSegment, h.root]
  dsimp only
  rw [if_neg hname.ne_nil]
  cases hstep : Vfs.childStep nyfsDrivers .NfileNotFound 0 name s with
  | mk res s₁ =>
      cases res with
      | error e => rw [Eff.bind_error hstep]
      | ok c =>
          rw [Eff.bind_ok hstep]
          cases fuel with
          | zero => rfl
          | succ fuel => rfl

omit [ReliableDevice D] in
/-- What the cache has for a name in the root. -/
theorem AtBoot.namedDentry (h : AtBoot s) (hname : OneComponent name) :
    Vfs.namedDentry s [] (47 :: name) = cachedChild s.dentries 0 name := by
  have hlen := List.length_pos_of_ne_nil hname.ne_nil
  rw [Vfs.namedDentry, h.namespaceOf]
  change Vfs.cachedLoop s.dentries name.length (s.namespaces 0).root name = _
  obtain ⟨fuel, hfuel⟩ := Nat.exists_eq_succ_of_ne_zero hlen.ne'
  rw [hfuel, Vfs.cachedLoop, if_neg hname.ne_nil, hname.parseSegment, h.root]
  dsimp only
  rw [if_neg hname.ne_nil]
  cases cachedChild s.dentries 0 name with
  | none => rfl
  | some c =>
      cases fuel with
      | zero => rfl
      | succ fuel => rfl

/-- What the volume has for a name in the root. -/
theorem diskNode_of_component (v : Volume D) (hname : OneComponent name) :
    diskNode v (47 :: name) = match (lookupNode nyfsRootIno name ⟨0, 0⟩ v).1 with
      | .error _ => none
      | .ok (t, _) => some t := by
  have hlen := List.length_pos_of_ne_nil hname.ne_nil
  change diskLoop v name.length nyfsRootIno name = _
  obtain ⟨fuel, hfuel⟩ := Nat.exists_eq_succ_of_ne_zero hlen.ne'
  rw [hfuel, diskLoop, if_neg hname.ne_nil, hname.parseSegment]
  dsimp only
  rw [if_neg hname.ne_nil]
  cases (lookupNode nyfsRootIno name ⟨0, 0⟩ v).1 with
  | error e => rfl
  | ok found =>
      cases fuel with
      | zero => rfl
      | succ fuel => rfl

/-- The root directory is the directory of a name in it. -/
theorem AtBoot.inDirectory (hboot : AtBoot s) (h : Coherent k L 0 s kids ino nodes)
    (hname : OneComponent name) :
    InDirectory k s [] (47 :: name) 0 s kids ino 0 (47 :: name) 0 name := by
  refine ⟨hboot.namespaceOf name, hboot.resolveNamespacePath name, hboot.resolveParentNs hname,
    Or.inl rfl, hname.ne_nil, ?_⟩
  have hlen := List.length_pos_of_ne_nil hname.ne_nil
  change diskParentLoop (s.drv.fs.volumes k) name.length nyfsRootIno name = _
  obtain ⟨fuel, hfuel⟩ := Nat.exists_eq_succ_of_ne_zero hlen.ne'
  rw [hfuel, diskParentLoop, if_neg hname.ne_nil, hname.parseSegment, h.top]
  dsimp only
  rw [if_neg hname.ne_nil]
  rfl

/-- A name that the root directory holds is entered into the cache. -/
theorem Coherent.resolve_name {slot c type : Nat} (h : Coherent k L 0 s kids ino nodes) (hboot : AtBoot s)
    (hname : OneComponent name) (hcred : s.drv.fs.cred = ⟨0, 0⟩)
    (hfind : (nodes nyfsRootIno).find name = some (t, type))
    (hnone : cachedChild s.dentries 0 name = none) (hn : freeVnodeSlot s.drv = some n)
    (hslot : freeDataSlot s.drv = some slot) (hc : freeDentrySlot s = some c) :
    ∃ s₁ kids₁ ino₁, Vfs.resolvePathInternal nyfsDrivers [] (47 :: name) s = (.ok c, s₁) ∧
      Grown k L 0 nodes s kids ino s₁ kids₁ ino₁ ∧ c ∈ kids₁ 0 ∧ (s₁.dentries c).name = name ∧
      ino₁ c = t ∧ s₁ = { s with
        dentries := entered s.dentries 0 c name n
        drv := withVnode s.drv n slot k t (vnodeType ((s.drv.fs.volumes k).view.inode t)) } := by
  have hroot : Cached kids 0 0 := Or.inl rfl
  have hlookup : (lookupNode (ino 0) name s.drv.fs.cred (s.drv.fs.volumes k)).1 =
      .ok (t, (s.drv.fs.volumes k).view.inode t) := by
    rw [hcred, h.top]
    rw [← h.top] at hfind ⊢
    exact h.volume.lookupNode_root (h.live hroot) hfind
  have hcases := h.childStep_cases hroot .NfileNotFound name
  rw [hboot.resolvePathInternal hname]
  cases hstep : Vfs.childStep nyfsDrivers .NfileNotFound 0 name s with
  | mk res s₁ =>
      rw [hstep] at hcases
      obtain ⟨kids₁, ino₁, hgrown, hok⟩ := hcases.grown h hroot
      cases hcases with
      | cached c' hchild =>
          rw [hnone] at hchild
          cases hchild
      | refused e hnone' hrefused =>
          rw [hlookup] at hrefused
          cases hrefused
      | noVnode t' x drv hnone' hlookup' hno =>
          rcases hno with hno | hno
          · rw [show freeVnodeSlot s.drv = none from hno] at hn
            cases hn
          · rw [show freeDataSlot s.drv = none from hno] at hslot
            cases hslot
      | noDentry t' x n' slot' hnone' hlookup' hn' hslot' hno =>
          rw [hno] at hc
          cases hc
      | fresh t' x c' n' slot' hnone' hlookup' hn' hslot' hc' =>
          rw [hlookup] at hlookup'
          cases hlookup'
          obtain rfl : c' = c := Option.some.inj (hc'.symm.trans hc)
          obtain rfl : n' = n := Option.some.inj (hn'.symm.trans hn)
          obtain rfl : slot' = slot := Option.some.inj (hslot'.symm.trans hslot)
          obtain ⟨hmem, hlabel, -⟩ := hok c' rfl
          refine ⟨_, kids₁, ino₁, rfl, hgrown, hmem, hlabel, ?_, rfl⟩
          obtain ⟨-, type', hfind'⟩ := hgrown.coherent.entry 0 c' hmem
          rw [hgrown.same 0 hroot, h.top, hlabel, hfind] at hfind'
          exact (congrArg Prod.fst (Option.some.inj hfind')).symm

omit [ReliableDevice D] in
theorem AtBoot.grows {kids' : Nat → List Nat} (h : AtBoot s) (hgrows : Vfs.Grows s kids s' kids') :
    AtBoot s' :=
  ⟨hgrows.default_eq.trans h.default_eq, by rw [hgrows.namespaces]; exact h.root⟩

/-- A listing of a path that the cache shows leaves what the resolution has left. -/
theorem Coherent.exec_readdir {buffer path : List UInt8} {nameMax : Nat}
    (h : Coherent k L r s' kids ino nodes)
    (hrun : Vfs.resolvePathInternal nyfsDrivers buffer path s = (.ok d, s')) (hd : Cached kids r d)
    (index : Nat) (hmax : nameMax ≠ 0) : (MountCall.readdir buffer path index nameMax).exec s = s' := by
  obtain ⟨-, n, hnode, hstands⟩ := h.shows d hd
  rw [MountCall.exec, Vfs.vfsReaddir, if_neg hmax, Eff.bind_ok hrun, Eff.gets_bind_run, hnode,
    hstands.opsOf]
  change (Vfs.callDriver (nyfsReaddir n index nameMax) s').2 = s'
  rw [Vfs.callDriver, nyfsReaddir_state hstands.vnodeOf index nameMax]

/-- A volume with one file is mounted at the root, and the file is cached. -/
structure FileCached (L : Layout) (s : VfsState (NyfsState D)) (kids : Nat → List Nat)
    (ino : Nat → Nat) (nodes : Nat → Node) (name : Name) (c : Nat) : Prop where
  coherent : Coherent 0 L 0 s kids ino nodes
  boot : AtBoot s
  top : (s.dentries 0).parent = none
  cred : s.drv.fs.cred = ⟨0, 0⟩
  file : OneFile L (s.drv.fs.volumes 0).view nodes name
  mem : c ∈ kids 0
  label : (s.dentries c).name = name

theorem FileCached.cachedChild_eq {c : Nat} (h : FileCached L s kids ino nodes name c) :
    cachedChild s.dentries 0 name = some c := by
  rw [← h.label]
  exact h.coherent.cachedChild_of_mem h.mem

/-- What a directory holds is seen in every inventory of the volume. -/
theorem Sound.find_of_find {i type : Nat} (h : Sound L v nodes) (h' : Sound L v nodes')
    (hi : Live L v.view i) (hfind : (nodes i).find name = some (t, type)) :
    ∃ type', (nodes' i).find name = some (t, type') := by
  have hlookup := h.lookupNode_root hi hfind
  exact ((h'.lookupNode_eq_ok hi).mp hlookup).1.find

/-- The invariant does not depend on the inventory. -/
theorem Coherent.withNodes (h : Coherent k L r s kids ino nodes)
    (hsound : Sound L (s.drv.fs.volumes k) nodes') : Coherent k L r s kids ino nodes' where
  tree := h.tree
  volume := hsound
  cred := h.cred
  root := h.root
  roots := h.roots
  top := h.top
  shows := h.shows
  entry := by
    intro p c hc
    obtain ⟨hp, type, hfind⟩ := h.entry p c hc
    exact ⟨hp, h.volume.find_of_find hsound (h.live hp) hfind⟩
  once := h.once

/-- A file is made on a small volume that has just been mounted. -/
theorem tiny_created : ∃ (v : Volume MemoryDisk) (s : VfsState (NyfsState MemoryDisk)) (kids : _)
    (ino : _) (nodes : _) (c : Nat), Reachable anyRequest (tinyParams 114) ⟨fun _ => 0⟩ v ∧
      Vfs.vfsCreate nyfsDrivers [] [47, 97] 0o644 (freshMount v) = (.ok (), s) ∧
      FileCached (tinyParams 114).layout s kids ino nodes [97] c := by
  have hname : OneComponent [97] := ⟨nameOk_a, by decide⟩
  obtain ⟨v, nodes, hreach, hsound, hfresh⟩ := tiny_opens anyRequest (Or.inl rfl)
    (⟨fun _ => 0⟩ : MemoryDisk)
  obtain ⟨hstarts, -, hacl, -, hfit⟩ := hfresh.takes_name hsound.valid (by decide) hname.nameOk
  obtain ⟨nodes₁, hsound₁, hfile⟩ := hfresh.oneFile hsound (by decide) hname.nameOk
  rw [Request.exec, statusOf_state] at hsound₁ hfile
  have hcoherent := coherent_freshMount hsound
  have hstep := hcoherent.makeEntry_in (by decide)
    ((atBoot_freshMount v).inDirectory hcoherent hname) false 0o644
  have hcoheres := hstep.coheres hcoherent (Or.inl rfl)
  obtain ⟨nodes', hsound', hout⟩ := hsound.makeNode_step hsound.inventory.root.1 false [97] 0o644
    superuser_fits
  refine ⟨v, (Vfs.makeEntry nyfsDrivers (makeOp false) [] [47, 97] 0o644 (freshMount v)).2, ?_⟩
  change ∃ kids ino nodes c, _ ∧
    Vfs.makeEntry nyfsDrivers (makeOp false) [] [47, 97] 0o644 (freshMount v) = _ ∧ _
  cases hmade : Vfs.makeEntry nyfsDrivers (makeOp false) [] [47, 97] 0o644 (freshMount v) with
  | mk res s₁ =>
      rw [hmade] at hstep hcoheres
      dsimp only at hstep hcoheres ⊢
      obtain ⟨kids, ino, nodes₂, hcoherent₁⟩ := hcoheres
      cases hstep with
      | present c hpresent => cases hpresent
      | refused e v' hnone hmake =>
          change makeNode false nyfsRootIno [97] 0o644 ⟨0, 0⟩ v = _ at hmake
          rw [hmake] at hout
          cases hout with
          | failed e leaked _ _ _ _ _ hno =>
              exact absurd ⟨hstarts, [], [], hacl false, rfl, Or.inl hfit⟩ hno
      | noVnode t v' drv hnone hmake hno =>
          rcases hno with hno | hno
          · cases hno
          · cases hno
      | noDentry t v' n slot hnone hmake hn hslot hno => cases hno
      | made t v' c n slot hnone hmake hn hslot hc =>
          change makeNode false nyfsRootIno [97] 0o644 ⟨0, 0⟩ v = _ at hmake
          rw [hmake] at hsound₁ hfile
          cases hc
          have hchild : cachedChild (entered (freshMount v).dentries 0 1 [97] n) 0 [97] = some 1 := rfl
          refine ⟨kids, ino, nodes₁, 1, hreach, rfl,
            hcoherent₁.withNodes ?_, ⟨rfl, rfl⟩, rfl, rfl, ?_, ?_, rfl⟩
          · change Sound _ ((withVolume (freshMount v).drv 0 v').fs.volumes 0) nodes₁
            rw [withVolume_self]
            exact hsound₁
          · change OneFile _ ((withVolume (freshMount v).drv 0 v').fs.volumes 0).view nodes₁ [97]
            rw [withVolume_self]
            exact hfile
          · exact hcoherent₁.tree.tree.cachedChild_mem hchild

/-- A run that caches the file of a small volume. -/
theorem tiny_cached {size : Nat} (hsize : size = 114 ∨ size = 118) (hname : OneComponent name)
    (ok : VfsState (NyfsState MemoryDisk) → MountCall → Prop)
    (hok : ∀ s index nameMax, ok s (.readdir [] (47 :: name) index nameMax)) :
    ∃ s kids ino nodes c, CacheRun (tinyParams size) ⟨fun _ => 0⟩ 0 ok s ∧
      FileCached (tinyParams size).layout s kids ino nodes name c := by
  obtain ⟨v, nodes, hreach, hsound, hfile⟩ := tiny_file (D := MemoryDisk) anyRequest hsize
    ⟨fun _ => 0⟩ hname.nameOk (fun _ => trivial)
  have hcoherent := coherent_freshMount hsound
  have hfind : (nodes nyfsRootIno).find name = some (2, nyfsDirentTypeFile) := by
    rw [hfile.find, Function.update_self]
  obtain ⟨s₁, kids₁, ino₁, hrun, hgrown, hmem, hlabel, -, heq⟩ := hcoherent.resolve_name
    (atBoot_freshMount v) hname rfl hfind rfl rfl rfl rfl
  have hstep := CacheRun.step (.readdir [] (47 :: name) 0 1) (cacheRun_freshMount hreach ok) trivial
    (hok _ 0 1)
  rw [hgrown.coherent.exec_readdir hrun (Or.inr ⟨0, hmem⟩) 0 (by decide)] at hstep
  refine ⟨s₁, kids₁, ino₁, nodes, _, hstep, hgrown.coherent, (atBoot_freshMount v).grows hgrown.grows,
    ?_, hgrown.cred, ?_, hmem, hlabel⟩
  · obtain ⟨f, hf⟩ := hgrown.grows.old 0 rfl
    rw [hf]
    rfl
  · rw [hgrown.volumes]
    exact hfile

theorem Sound.openNode_root {i : Nat} (h : Sound L v nodes) (hi : Live L v.view i) (flags : Nat) :
    (openNode i flags ⟨0, 0⟩ v).1 = .ok () := by
  have hread := h.inventory.toOwned.does_readInode (D := D) h.valid hi
  have haccess := (h.inventory.holds i hi).does_checkAccess (D := D) h.valid ⟨0, 0⟩ (requestedMask flags)
  have hgrants : Grants v.view (v.view.inode i) ⟨0, 0⟩ (requestedMask flags) := Or.inl rfl
  rw [if_pos hgrants] at haccess
  have hdoes : Does L v.view (openNode i flags ⟨0, 0⟩ : NyfsM D _) (.ok ()) v.view := by
    refine hread.bind (haccess.bind ?_)
    split
    next => exact does_requireWritable
    next => exact Does.pure _
  exact (h.does hdoes h.inventory).1

/-- The file is opened. -/
theorem FileCached.vfsOpen {c : Nat} (h : FileCached L s kids ino nodes name c)
    (hname : OneComponent name) (hnode : (s.dentries c).node = some n) {slot : Nat}
    (hslot : Vfs.firstFree (fun j => (s.drv.fs.handleSlots j).inUse) nyfsMaxHandles = some slot)
    (flags : Nat) :
    Vfs.vfsOpen nyfsDrivers [] (47 :: name) flags s = (.ok ⟨some n, 0, flags, some slot⟩, { s with
      drv := { s.drv with
        fs := { s.drv.fs with
          handleSlots := Function.update s.drv.fs.handleSlots slot ⟨true, ⟨some 0, 2⟩⟩ } } }) := by
  have hcached : Cached kids 0 c := Or.inr ⟨0, h.mem⟩
  obtain ⟨-, m, hm, hstands⟩ := h.coherent.shows c hcached
  obtain rfl : n = m := Option.some.inj (hnode.symm.trans hm)
  have hino : ino c = 2 := by
    obtain ⟨-, type, hfind⟩ := h.coherent.entry 0 c h.mem
    rw [h.coherent.top, h.label, h.file.find, Function.update_self] at hfind
    exact (congrArg Prod.fst (Option.some.inj hfind)).symm
  have hresolve : Vfs.resolvePathInternal nyfsDrivers [] (47 :: name) s = (.ok c, s) := by
    have hfind := h.coherent.tree.tree.findChild_run 0 name
    rw [h.cachedChild_eq] at hfind
    rw [h.boot.resolvePathInternal hname, Vfs.childStep, Eff.bind_ok hfind]
    rfl
  have hopen := nyfsOpen_eq hstands.vnodeOf flags ⟨some n, 0, flags, none⟩
  rw [h.cred, h.coherent.volume.openNode_root (h.coherent.live hcached), hslot, hino] at hopen
  rw [Vfs.vfsOpen, Eff.bind_ok hresolve, Eff.gets_bind_run, hnode, hstands.opsOf]
  dsimp only [nyfsOps]
  rw [Vfs.callDriver, hopen]

/-- The file is unlinked, and its dentry and its vnode are given back. -/
theorem FileCached.vfsUnlink {c : Nat} (h : FileCached L s kids ino nodes name c)
    (hname : OneComponent name) (hnode : (s.dentries c).node = some n) :
    ∃ ds v' nodes', removeNode nyfsRootIno name ⟨0, 0⟩ none (s.drv.fs.volumes 0) = (.ok (), v') ∧
      Sound L v' nodes' ∧
      RemoveOutcome L (s.drv.fs.volumes 0).view nodes nyfsRootIno name v'.view nodes' (.ok ()) ∧
      (nodes' nyfsRootIno).free = (nodes nyfsRootIno).free ∧
      Vfs.Released s.dentries kids 0 c ds ∧
      Vfs.vfsUnlink nyfsDrivers [] (47 :: name) s = (.ok (), { s with
        dentries := ds, drv := (Vfs.vfsFreeVnode (some n) (withVolume s.drv 0 v')).2 }) := by
  have hsound := h.coherent.volume
  obtain ⟨-, m, hm, hstands⟩ := h.coherent.shows 0 (Or.inl rfl)
  rw [h.coherent.top] at hstands
  have hfind : (nodes nyfsRootIno).find name = some (2, nyfsDirentTypeFile) := by
    rw [h.file.find, Function.update_self]
  have hnotDir : ((s.drv.fs.volumes 0).view.inode 2).type ≠ nyfsInoTypeDir := by
    rw [h.file.type]
    decide
  have hstarts : RemoveStarts (s.drv.fs.volumes 0).view nodes nyfsRootIno name ⟨0, 0⟩ none 2
      nyfsDirentTypeFile :=
    ⟨h.file.rootType, Or.inl rfl, hname.nameOk, hfind, nofun, nofun, fun hbusy => hnotDir hbusy.1⟩
  obtain ⟨V', nodes', hdoes, hinv, hout, hfree⟩ := hsound.inventory.removeNode_starts (D := D) hsound.valid
    hsound.inventory.root.1 hstarts
  obtain ⟨hres, hview, hsound'⟩ := hsound.does hdoes hinv
  cases hremove : removeNode nyfsRootIno name ⟨0, 0⟩ none (s.drv.fs.volumes 0) with
  | mk res v' =>
      rw [hremove] at hres hview hsound'
      dsimp only at hres hview hsound'
      subst hres hview
      obtain ⟨ds, hdrop, hds⟩ :=
        (h.coherent.tree.withDrv (withVolume s.drv 0 v')).tree.drop_run h.mem
      refine ⟨ds, v', nodes', rfl, hsound', hout, hfree, hds, ?_⟩
      have hcall : Vfs.callDriver (nyfsUnlink m name) s =
          (.ok (), { s with drv := withVolume s.drv 0 v' }) := by
        rw [Vfs.callDriver, nyfsUnlink_eq hstands.vnodeOf name, onVolume_eq, h.cred, hremove]
      rw [Vfs.vfsUnlink, if_neg (by simp), Eff.bind_ok (h.boot.resolveNamespacePath name)]
      dsimp only
      rw [Eff.bind_ok (h.boot.resolveParentNs hname)]
      dsimp only
      rw [if_neg hname.ne_nil, Eff.gets_bind_run, hm, hstands.opsOf]
      dsimp only [nyfsOps]
      rw [Eff.bind_ok hcall,
        Eff.bind_ok ((h.coherent.tree.withDrv (withVolume s.drv 0 v')).tree.findChild_run 0 name)]
      dsimp only
      rw [h.cachedChild_eq]
      dsimp only
      rw [hdrop]
      dsimp only
      rw [hnode]

/-! ## What the cache answers -/

/-- The inode and the type that a local path has on the volume, looked up component by component
and without a cache. -/
def diskVnode (v : Volume D) (localPath : List UInt8) : Option (Nat × Nat) :=
  (diskNode v localPath).bind (fun i =>
    match (readInode i v).1 with
    | .error _ => none
    | .ok x => some (i, vnodeType x))

/-- A dentry that stands for the inode of a path has its number and its type. -/
theorem Coherent.diskVnode_eq (h : Coherent k L r s kids ino nodes) (hd : Cached kids r d)
    {localPath : List UInt8} (hdisk : diskNode (s.drv.fs.volumes k) localPath = some (ino d))
    (hnode : (s.dentries d).node = some n) :
    diskVnode (s.drv.fs.volumes k) localPath =
      some ((s.drv.vnodes n).inodeId, (s.drv.vnodes n).type) := by
  obtain ⟨hlive, m, hm, slot, hvnode, -⟩ := h.shows d hd
  obtain rfl : m = n := Option.some.inj (hm.symm.trans hnode)
  have hread := h.volume.inventory.toOwned.does_readInode (D := D) h.volume.valid hlive
  obtain ⟨w, hrun, -⟩ := hread.run h.volume.valid h.volume.mounted rfl
  rw [diskVnode, hdisk, Option.bind_some, hrun, hvnode]

/-- A path whose components are all cached leads to the inode that it has on the volume. -/
theorem Coherent.cachedLoop_disk (h : Coherent k L r s kids ino nodes) {fuel cur : Nat}
    {cursor : List UInt8} (hcur : Cached kids r cur)
    (hd : Vfs.cachedLoop s.dentries fuel cur cursor = some d) :
    Cached kids r d ∧ diskLoop (s.drv.fs.volumes k) fuel (ino cur) cursor = some (ino d) := by
  induction fuel generalizing cur cursor with
  | zero =>
      rw [Vfs.cachedLoop] at hd
      cases hd
      exact ⟨hcur, rfl⟩
  | succ fuel ih =>
      rw [Vfs.cachedLoop] at hd
      rw [diskLoop]
      by_cases hempty : cursor = []
      · rw [if_pos hempty] at hd ⊢
        cases hd
        exact ⟨hcur, rfl⟩
      rw [if_neg hempty] at hd ⊢
      cases hparse : Vfs.parseSegment cursor with
      | error e =>
          rw [hparse] at hd
          cases hd
      | ok segment =>
          obtain ⟨name, rest⟩ := segment
          rw [hparse] at hd
          dsimp only at hd ⊢
          by_cases hname : name = []
          · rw [if_pos hname] at hd ⊢
            cases hd
            exact ⟨hcur, rfl⟩
          rw [if_neg hname] at hd ⊢
          cases hchild : cachedChild s.dentries cur name with
          | none =>
              rw [hchild] at hd
              cases hd
          | some c =>
              rw [hchild] at hd
              have hmem := h.tree.tree.cachedChild_mem hchild
              obtain ⟨-, type, hfind⟩ := h.entry cur c hmem
              rw [h.tree.tree.cachedChild_name hchild] at hfind
              rw [h.volume.lookupNode_root (h.live hcur) hfind]
              exact ih (Or.inr ⟨cur, hmem⟩) hd

/-- Nothing is cached below a root where nothing is mounted. -/
theorem Coherent.kids_of_bare (h : Coherent k L r s kids ino nodes)
    (hbare : (s.dentries d).node = none) : kids d = [] := by
  rw [List.eq_nil_iff_forall_not_mem]
  intro c hc
  exact h.not_cached_of_bare hbare (h.entry d c hc).1

/-- The cache answers for a local path as the volume does. -/
theorem Coherent.namedIn_disk (h : Coherent k L r s kids ino nodes) {ns : Nat}
    {localPath : List UInt8} (hns : (s.namespaces ns).inUse)
    (hd : Vfs.namedIn s ns localPath = some d) (hnode : (s.dentries d).node = some n) :
    diskVnode (s.drv.fs.volumes k) localPath =
      some ((s.drv.vnodes n).inodeId, (s.drv.vnodes n).type) := by
  obtain ⟨hreached, hstart⟩ := h.startOf_reached hns localPath
  rcases hreached with hcur | ⟨hbare, -⟩
  · obtain ⟨hcached, hdisk⟩ := h.cachedLoop_disk hcur hd
    rw [hstart hcur, h.top] at hdisk
    exact h.diskVnode_eq hcached hdisk hnode
  · rw [Vfs.cachedLoop_of_no_kids h.tree.tree (h.kids_of_bare hbare) hd, hbare] at hnode
    cases hnode

/-- In every run of safe calls, a path that resolves to a vnode, from the cache or with the help of
the driver, resolves to the inode and the type that lookups on the volume lead to, and what the volume
does not have is not cached. -/
theorem cache_shows_volume {p : MkfsParams} {dev : D} (hsmall : p.Small)
    (h : CacheRun p dev k (fun s c => c.Safe k p.layout s) s) {buffer path localPath : List UInt8}
    {ns : Nat} (hspace : Vfs.namespaceOf s buffer path = some (ns, localPath)) :
    (∀ d n, Vfs.namedDentry s buffer path = some d → (s.dentries d).node = some n →
      diskVnode (s.drv.fs.volumes k) localPath =
        some ((s.drv.vnodes n).inodeId, (s.drv.vnodes n).type)) ∧
      (∀ d n s', Vfs.resolvePathInternal nyfsDrivers buffer path s = (.ok d, s') →
        (s'.dentries d).node = some n → diskVnode (s'.drv.fs.volumes k) localPath =
          some ((s'.drv.vnodes n).inodeId, (s'.drv.vnodes n).type)) ∧
      (diskVnode (s.drv.fs.volumes k) localPath = none →
        ∀ d, Vfs.namedDentry s buffer path = some d → (s.dentries d).node = none) := by
  obtain ⟨r, kids, ino, nodes, hcoherent⟩ := h.coheres hsmall (fun _ _ hok => hok)
  have hnamed : Vfs.namedDentry s buffer path = Vfs.namedIn s ns localPath := by
    rw [Vfs.namedDentry, hspace]
  have hcached : ∀ d n, Vfs.namedDentry s buffer path = some d → (s.dentries d).node = some n →
      diskVnode (s.drv.fs.volumes k) localPath =
        some ((s.drv.vnodes n).inodeId, (s.drv.vnodes n).type) := by
    intro d n hd hnode
    rw [hnamed] at hd
    exact hcoherent.namedIn_disk (hcoherent.tree.namespaceOf_used hspace) hd hnode
  refine ⟨hcached, fun d n s' hrun hnode => ?_, fun hnone d hd => ?_⟩
  · obtain ⟨s₁, kids₁, ino₁, hgrown, hcase⟩ := hcoherent.path_cases buffer path
    rcases hcase with ⟨e, hrun₁⟩ | ⟨d₁, hrun₁, hbare⟩ | ⟨ns₁, localPath₁, d₁, hat⟩
    · rw [hrun] at hrun₁
      cases hrun₁
    · rw [hrun] at hrun₁
      cases hrun₁
      rw [hbare] at hnode
      cases hnode
    · have hrun₁ := hat.run
      rw [hrun] at hrun₁
      cases hrun₁
      have hlocal := hat.space
      rw [hspace] at hlocal
      cases hlocal
      refine hgrown.coherent.diskVnode_eq hat.cached ?_ hnode
      rw [hgrown.volumes]
      exact hat.disk
  · cases hnode : (s.dentries d).node with
    | none => rfl
    | some n =>
        rw [hcached d n hd hnode] at hnone
        cases hnone

theorem cache_shows_volume_tiny : ∃ (s : VfsState (NyfsState MemoryDisk)) (d n : Nat),
    CacheRun (tinyParams 114) ⟨fun _ => 0⟩ 0 (fun s c => c.Safe 0 (tinyParams 114).layout s) s ∧
      Vfs.namedDentry s [] [47, 97] = some d ∧ (s.dentries d).node = some n ∧
      diskVnode (s.drv.fs.volumes 0) [47, 97] =
        some ((s.drv.vnodes n).inodeId, (s.drv.vnodes n).type) := by
  have hname : OneComponent [97] := ⟨nameOk_a, by decide⟩
  obtain ⟨s, kids, ino, nodes, c, hrun, hcached⟩ := tiny_cached (Or.inl rfl) hname
    (fun s c => c.Safe 0 (tinyParams 114).layout s) (fun _ _ _ => trivial)
  obtain ⟨-, n, hnode, -⟩ := hcached.coherent.shows c (Or.inr ⟨0, hcached.mem⟩)
  have hnamed : Vfs.namedDentry s [] [47, 97] = some c :=
    (hcached.boot.namedDentry hname).trans hcached.cachedChild_eq
  have hsmall : (tinyParams 114).Small := ⟨by decide, by decide⟩
  exact ⟨s, c, n, hrun, hnamed, hnode,
    (cache_shows_volume hsmall hrun (hcached.boot.namespaceOf [97])).1 c n hnamed hnode⟩

/-- A name that the root directory does not hold leads nowhere. -/
theorem diskVnode_of_absent (h : Sound L v nodes) (hname : OneComponent name)
    (habsent : (nodes nyfsRootIno).find name = none) : diskVnode v (47 :: name) = none := by
  rw [diskVnode, diskNode_of_component v hname]
  cases hlookup : (lookupNode nyfsRootIno name ⟨0, 0⟩ v).1 with
  | error e => rfl
  | ok found =>
      obtain ⟨hans, -⟩ := (h.lookupNode_eq_ok h.inventory.root.1).mp hlookup
      obtain ⟨type, hfind⟩ := hans.find
      rw [habsent] at hfind
      cases hfind

theorem longName_component (byte : UInt8) (hbyte : byte ≠ Vfs.slash) : OneComponent (longName byte) := by
  refine ⟨longName_ok byte, fun hmem => hbyte ?_⟩
  exact (List.eq_of_mem_replicate hmem).symm

/-- A rename from one name in the root to another, behind the resolution of its paths. -/
theorem Coherent.vfsRename_atRoot {newName : Name} (h : Coherent 0 L 0 s kids ino nodes)
    (hboot : AtBoot s) (hname : OneComponent name) (hnew : OneComponent newName)
    (hnode : (s.dentries 0).node = some n) :
    Vfs.vfsRename nyfsDrivers [] [] (47 :: name) (47 :: newName) s = renameIn 0 0 n name newName s := by
  obtain ⟨-, m, hm, hstands⟩ := h.shows 0 (Or.inl rfl)
  obtain rfl : n = m := Option.some.inj (hnode.symm.trans hm)
  rw [Vfs.vfsRename, if_neg (by simp), Eff.bind_ok (hboot.resolveNamespacePath name)]
  dsimp only
  rw [Eff.bind_ok (hboot.resolveNamespacePath newName)]
  dsimp only
  rw [if_neg (not_not.mpr rfl), Eff.bind_ok (hboot.resolveParentNs hname)]
  dsimp only
  rw [Eff.bind_ok (hboot.resolveParentNs hnew)]
  dsimp only
  rw [if_neg (not_or.mpr ⟨hname.ne_nil, hnew.ne_nil⟩), Eff.gets_bind_run, hnode, hstands.opsOf]
  rfl

/-- A rename from one name in the root to another, where the first is cached, up to the driver's
answer. -/
theorem FileCached.vfsRename_error {c : Nat} {newName : Name} {e : Stop} {v' : Volume D}
    (h : FileCached L s kids ino nodes name c) (hname : OneComponent name) (hnew : OneComponent newName)
    (hrename : renameNode nyfsRootIno name nyfsRootIno newName ⟨0, 0⟩ (s.drv.fs.volumes 0) =
      (.error e, v')) :
    Vfs.vfsRename nyfsDrivers [] [] (47 :: name) (47 :: newName) s =
      (.error e, { s with drv := withVolume s.drv 0 v' }) := by
  have hroot : Cached kids 0 0 := Or.inl rfl
  obtain ⟨-, n, hnode, hstands⟩ := h.coherent.shows 0 hroot
  rw [h.coherent.top] at hstands
  have hne : 0 ≠ c := by
    rintro rfl
    exact h.coherent.root_not_kid 0 h.mem
  have hcall : Vfs.callDriver (nyfsRename n name (some n) newName) s =
      (.error e, { s with drv := withVolume s.drv 0 v' }) := by
    rw [Vfs.callDriver, nyfsRename_run hstands.vnodeOf hstands.vnodeOf name newName, onVolume_eq, h.cred,
      hrename]
  have hpass : Vfs.checkNoCycle (some c) 0 s = (.ok (), s) := by
    rw [Vfs.checkNoCycle, Eff.gets_bind_run, Vfs.vfsMaxDentries, Vfs.isAncestor, if_neg hne, h.top]
    rfl
  rw [h.coherent.vfsRename_atRoot h.boot hname hnew hnode, renameIn,
    Eff.bind_ok (h.coherent.tree.tree.findChild_run 0 name), h.cachedChild_eq, Eff.bind_ok hpass,
    Eff.gets_bind_run, hnode, Eff.bind_error hcall]

/-- A rename fails on a full volume, the file has no name any more, and the cache goes on showing it. -/
theorem cache_shows_lost_name : ∃ (s : VfsState (NyfsState MemoryDisk)) (d n : Nat),
    CacheRun (tinyParams 118) ⟨fun _ => 0⟩ 0 (fun _ _ => True) s ∧
      Vfs.namespaceOf s [] (47 :: longName 97) = some (0, 47 :: longName 97) ∧
      Vfs.namedDentry s [] (47 :: longName 97) = some d ∧ (s.dentries d).node = some n ∧
      diskVnode (s.drv.fs.volumes 0) (47 :: longName 97) = none := by
  have hname := longName_component 97 (by decide)
  have hnew := longName_component 98 (by decide)
  obtain ⟨s, kids, ino, nodes, c, hrun, hcached⟩ := tiny_cached (Or.inr rfl) hname
    (fun _ _ => True) (fun _ _ _ => trivial)
  have hlive : Live (tinyParams 118).layout (s.drv.fs.volumes 0).view nyfsRootIno :=
    hcached.coherent.volume.inventory.root.1
  obtain ⟨nodes', hsound, hout⟩ := hcached.coherent.volume.renameNode_step hlive hlive (longName 97)
    (longName 98) ⟨0, 0⟩
  obtain ⟨found, hstarts, hnoRoom, hnoBack⟩ := hcached.file.rename_loses
  cases hrename : renameNode nyfsRootIno (longName 97) nyfsRootIno (longName 98) ⟨0, 0⟩
      (s.drv.fs.volumes 0) with
  | mk res v' =>
      rw [hrename] at hsound hout
      dsimp only at hsound hout
      cases hout with
      | failed e hno => exact absurd hstarts (hno found)
      | same heq => exact absurd heq hstarts.moves
      | moved found' hstarts' hroom => exact absurd hroom hnoRoom
      | restored found' hstarts' hroom hback => exact absurd hback hnoBack
      | lost found' hstarts' hroom hback hsteady hfinds =>
          have hcall := hcached.vfsRename_error hname hnew hrename
          have hstep := CacheRun.step (.rename [] [] (47 :: longName 97) (47 :: longName 98)) hrun trivial
            trivial
          rw [MountCall.exec, hcall] at hstep
          obtain ⟨-, n, hnode, -⟩ := hcached.coherent.shows c (Or.inr ⟨0, hcached.mem⟩)
          have hboot : AtBoot { s with drv := withVolume s.drv 0 v' } := ⟨hcached.boot.1, hcached.boot.2⟩
          refine ⟨_, c, n, hstep, hboot.namespaceOf _, ?_, hnode, ?_⟩
          · rw [hboot.namedDentry hname]
            exact hcached.cachedChild_eq
          · rw [withVolume_self]
            refine diskVnode_of_absent hsound hname ?_
            rw [hfinds, Function.update_self, Function.update_self]

end Nyfs
end Nyxis
