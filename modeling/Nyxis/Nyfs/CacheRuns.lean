import Nyxis.Nyfs.CacheCalls
import Nyxis.Nyfs.Failures

/-!
# Runs over a mounted volume

A volume is mounted at the root of a namespace, and calls of the virtual file system follow.  The
cache shows the volume all along, as long as no rename is given one cached dentry by both of its
paths and no rename loses the name of a cached dentry.

Main results:

- Theorem {lit}`Coherent.vfsRename_post`: a rename.
- Theorem {lit}`Bare.mountRoot`: a mount.
- Theorem {lit}`Coheres.exec`: one call.
- Theorem {lit}`CacheRun.coheres`: whole runs.
-/

namespace Nyxis
namespace Nyfs

open Vfs (VfsState Drivers Handle Name cachedChild)

variable {D : Type} [ReliableDevice D] {L : Layout} {v v' : Volume D} {nodes nodes' : Nat → Node}
variable {k r : Nat} {s s' : VfsState (NyfsState D)} {drv drv' : Drivers (NyfsState D)}
variable {kids : Nat → List Nat} {ino : Nat → Nat} {cred : Cred}
variable {oldName newName : Name} {d p q n m : Nat}

/-! ## Renaming -/

theorem Sound.renameNode_step {o q : Nat} (h : Sound L v nodes) (ho : Live L v.view o)
    (hq : Live L v.view q) (oldName newName : Name) (cred : Cred) :
    ∃ nodes', Sound L (renameNode o oldName q newName cred v).2 nodes' ∧
      RenameOutcome L v.view nodes o oldName q newName cred
        (renameNode o oldName q newName cred v).2.view nodes'
        (renameNode o oldName q newName cred v).1 := by
  obtain ⟨res, V', nodes', hdoes, hinv, hout⟩ := h.inventory.renameNode (D := D) h.valid ho hq
    oldName newName cred
  obtain ⟨hres, hview, hsound⟩ := h.does hdoes hinv
  refine ⟨nodes', hsound, ?_⟩
  rw [hres, hview]
  exact hout

/-- The names of the cache that a change of one name leaves: those of other directories, and the
others of this one. -/
theorem Coherent.name_ne (h : Coherent k L r s kids ino nodes) (hp : Cached kids r p) {e x : Nat}
    {name : Name} (hx : x ∈ kids e) (hne : cachedChild s.dentries p name ≠ some x) :
    ¬(ino e = ino p ∧ (s.dentries x).name = name) := by
  rintro ⟨hino, rfl⟩
  obtain rfl := h.once e p (h.entry e x hx).1 hp hino
  exact hne (h.cachedChild_of_mem hx)

/-- A name that the directory does not hold is not cached. -/
theorem Coherent.cachedChild_eq_none (h : Coherent k L r s kids ino nodes) {name : Name}
    (habsent : (nodes (ino p)).find name = none) : cachedChild s.dentries p name = none := by
  cases hchild : cachedChild s.dentries p name with
  | none => rfl
  | some c =>
      obtain ⟨-, type, hfind⟩ := h.entry p c (h.tree.tree.cachedChild_mem hchild)
      rw [h.tree.tree.cachedChild_name hchild, habsent] at hfind
      cases hfind

/-- The volume after a rename that the cache has no dentry for, and after one that does nothing. -/
theorem Coherent.renameNode {res : Except Stop Unit} (h : Coherent k L r s kids ino nodes)
    (hp : Cached kids r p) (hsound : Sound L v' nodes')
    (hout : RenameOutcome L (s.drv.fs.volumes k).view nodes (ino p) oldName (ino q) newName cred
      v'.view nodes' res)
    (hnone : cachedChild s.dentries p oldName ≠ none →
      (∃ e, res = .error e ∧ ¬RenameLoses L (s.drv.fs.volumes k).view nodes (ino p) oldName (ino q)
        newName cred) ∨ (ino p = ino q ∧ oldName = newName)) :
    Coherent k L r { s with drv := Nyfs.withVolume s.drv k v' } kids ino nodes' := by
  have hsame : v'.view = (s.drv.fs.volumes k).view → nodes' = nodes →
      Coherent k L r { s with drv := Nyfs.withVolume s.drv k v' } kids ino nodes' := by
    intro hview hnodes
    refine h.withVolume hsound (fun x hx => ?_) (fun e x hx => by rw [hnodes])
    rw [KeepsInodes, hview]
    exact ⟨h.live hx, rfl⟩
  cases hout with
  | failed e hno hview hnodes => exact hsame hview hnodes
  | same heq found hfind hview hnodes => exact hsame hview hnodes
  | moved found hstarts hroom hsteady hfinds =>
      have hold : cachedChild s.dentries p oldName = none := by
        by_contra hcached
        rcases hnone hcached with ⟨e, he, -⟩ | heq
        · cases he
        · exact hstarts.moves heq
      refine h.withVolume hsound (fun x hx => (hsteady.kept (ino x) (h.live hx)).keepsInodes)
        (fun e x hx => ?_)
      rw [hfinds]
      refine moveFind_of_ne _ found (h.name_ne hp hx (by rw [hold]; exact (Option.some_ne_none x).symm)) ?_
      rintro ⟨hino, hname⟩
      obtain ⟨-, type, hfind⟩ := h.entry e x hx
      rw [hino, hname, hstarts.absent] at hfind
      cases hfind
  | restored found hstarts hroom hback hsteady hfinds =>
      refine h.withVolume hsound (fun x hx => (hsteady.kept (ino x) (h.live hx)).keepsInodes)
        (fun e x hx => ?_)
      rw [hfinds]
  | lost found hstarts hroom hback hsteady hfinds =>
      have hold : cachedChild s.dentries p oldName = none := by
        by_contra hcached
        rcases hnone hcached with ⟨e, -, hkeeps⟩ | heq
        · exact hkeeps ⟨found, hstarts, hroom, hback⟩
        · exact hstarts.moves heq
      refine h.withVolume hsound (fun x hx => (hsteady.kept (ino x) (h.live hx)).keepsInodes)
        (fun e x hx => ?_)
      have hne := h.name_ne hp hx (by rw [hold]; exact (Option.some_ne_none x).symm)
      rw [hfinds]
      by_cases hino : ino e = ino p
      · rw [hino, Function.update_self, Function.update_of_ne (fun hname => hne ⟨hino, hname⟩)]
      · rw [Function.update_of_ne hino]

/-- The part of {lit}`vfs_rename` behind the two directories. -/
def renameIn (p q n : Nat) (oldName newName : Name) : Vfs.VfsM (NyfsState D) Unit := do
  let existingOld ← Vfs.findChild p oldName
  Vfs.checkNoCycle existingOld q
  let newDir ← Eff.gets (fun v => (v.dentries q).node)
  Vfs.callDriver (nyfsRename n oldName newDir newName)
  match ← Vfs.findChild q newName with
  | some existingNew => Vfs.dropDentry q existingNew
  | none => pure ()
  match existingOld with
  | some d => Vfs.moveDentry p q d newName
  | none => pure ()

/-- Where the cache shows both directories, a rename keeps the invariant. -/
theorem Coherent.rename_post (h : Coherent k L r s kids ino nodes) (hp : Cached kids r p)
    (hq : Cached kids r q) (hn : (s.dentries p).node = some n)
    (hsafe : ∀ t, cachedChild s.dentries p oldName = some t → ¬Vfs.Above s.dentries t q →
      cachedChild s.dentries q newName ≠ some t ∧ ¬RenameLoses L (s.drv.fs.volumes k).view nodes
        (ino p) oldName (ino q) newName s.drv.fs.cred) :
    Eff.Post (renameIn p q n oldName newName) s (fun _ s' => Coheres k L r s') := by
  obtain ⟨-, n', hn', hstands⟩ := h.shows p hp
  obtain rfl : n = n' := Option.some.inj (hn.symm.trans hn')
  obtain ⟨-, m, hm, hstands'⟩ := h.shows q hq
  refine Eff.post_bind_ok (h.tree.tree.findChild_run p oldName) ?_
  rcases Vfs.checkNoCycle_run (cachedChild s.dentries p oldName) q s with
    ⟨stop, hfail⟩ | ⟨hpass, hnoCycle⟩
  · exact Eff.post_bind_error hfail ⟨kids, ino, nodes, h⟩
  refine Eff.post_bind_ok hpass (Eff.post_gets_bind ?_)
  rw [hm]
  obtain ⟨nodes', hsound, hout⟩ := h.volume.renameNode_step (h.live hp) (h.live hq) oldName newName
    s.drv.fs.cred
  have hcall : Vfs.callDriver (nyfsRename n oldName (some m) newName) s =
      ((Nyfs.renameNode (ino p) oldName (ino q) newName s.drv.fs.cred (s.drv.fs.volumes k)).1,
        { s with drv := Nyfs.withVolume s.drv k (Nyfs.renameNode (ino p) oldName (ino q) newName
          s.drv.fs.cred (s.drv.fs.volumes k)).2 }) := by
    rw [Vfs.callDriver, nyfsRename_run hstands.vnodeOf hstands'.vnodeOf oldName newName, onVolume_eq]
  cases hrename : Nyfs.renameNode (ino p) oldName (ino q) newName s.drv.fs.cred
      (s.drv.fs.volumes k) with
  | mk res v' =>
      rw [hrename] at hcall hsound hout
      dsimp only at hcall hsound hout
      cases res with
      | error e =>
          refine Eff.post_bind_error hcall
            ⟨kids, ino, nodes', h.renameNode hp hsound hout (fun hcached => ?_)⟩
          obtain ⟨t, ht⟩ := Option.ne_none_iff_exists'.mp hcached
          exact Or.inl ⟨e, rfl, (hsafe t ht (hnoCycle t ht)).2⟩
      | ok u =>
          have htree := (h.tree.withDrv (Nyfs.withVolume s.drv k v')).tree
          refine Eff.post_bind_ok hcall (Eff.post_bind_ok (htree.findChild_run q newName) ?_)
          dsimp only
          -- nothing is cached under the new name: the volume did not hold it, or the paths are equal
          have hnew : cachedChild s.dentries q newName = none := by
            cases hout with
            | same heq =>
                obtain rfl := h.once p q hp hq heq.1
                obtain rfl := heq.2
                cases hchild : cachedChild s.dentries p oldName with
                | none => rfl
                | some t => exact absurd hchild (hsafe t hchild (hnoCycle t hchild)).1
            | moved found hstarts => exact h.cachedChild_eq_none hstarts.absent
          rw [hnew]
          cases hold : cachedChild s.dentries p oldName with
          | none =>
              refine ⟨kids, ino, nodes', h.renameNode hp hsound hout (fun hcached => ?_)⟩
              exact absurd hold hcached
          | some d =>
              have hd := h.tree.tree.cachedChild_mem hold
              have hdq : d ≠ q := by
                rintro rfl
                exact hnoCycle d hold Vfs.Above.self
              obtain ⟨ds, hmove, hds⟩ := htree.move_run newName
                (fun e he => h.tree.tree.parent_unique he hd) (h.used (Or.inr ⟨p, hd⟩)) (h.used hq) hdq
              refine Eff.post_of_eq hmove ?_
              cases hout with
              | same heq =>
                  obtain rfl := h.once p q hp hq heq.1
                  rw [heq.2, hnew] at hold
                  cases hold
              | moved found hstarts hroom hsteady hfinds =>
                  obtain ⟨-, type, hentry⟩ := h.entry p d hd
                  rw [h.tree.tree.cachedChild_name hold, hstarts.find] at hentry
                  refine ⟨_, ino, nodes', h.move hd hq hds hstarts.newNameOk hsound
                    (fun x hx => (hsteady.kept (ino x) (h.live hx)).keepsInodes)
                    (fun e x hx hxd => ?_) ⟨type, ?_⟩⟩
                  · rw [hfinds]
                    refine moveFind_of_ne _ found (h.name_ne hp hx ?_) (h.name_ne hq hx ?_)
                    · rw [hold]
                      exact fun heq => hxd (Option.some.inj heq).symm
                    · rw [hnew]
                      exact (Option.some_ne_none x).symm
                  · rw [hfinds, moveFind_self]
                    exact hentry

/-- A rename that finds room for neither name, as the volume stands. -/
def LosesName (k : Nat) (L : Layout) (s : VfsState (NyfsState D)) (oldLocal newLocal : List UInt8) :
    Prop :=
  ∃ o oldName q newName nodes, diskParent (s.drv.fs.volumes k) oldLocal = some (o, oldName) ∧
    diskParent (s.drv.fs.volumes k) newLocal = some (q, newName) ∧
    Sound L (s.drv.fs.volumes k) nodes ∧
    RenameLoses L (s.drv.fs.volumes k).view nodes o oldName q newName s.drv.fs.cred

/-- A rename of a cached dentry is given another one by its new path, and does not lose the name. -/
def RenameSafe (k : Nat) (L : Layout) (s : VfsState (NyfsState D))
    (oldBuffer newBuffer oldPath newPath : List UInt8) : Prop :=
  ∀ ns oldLocal newLocal t, Vfs.namespaceOf s oldBuffer oldPath = some (ns, oldLocal) →
    Vfs.namespaceOf s newBuffer newPath = some (ns, newLocal) →
    Vfs.namedIn s ns oldLocal = some t →
    Vfs.namedIn s ns newLocal ≠ some t ∧ ¬LosesName k L s oldLocal newLocal

/-- The two directories that {lit}`vfs_rename` resolves its paths to, both cached. -/
structure RenamePlaces (k : Nat) (L : Layout) (r : Nat) (nodes : Nat → Node)
    (s : VfsState (NyfsState D)) (kids : Nat → List Nat) (ino : Nat → Nat)
    (oldBuffer newBuffer oldPath newPath : List UInt8) (p q n : Nat) (oldName newName : Name)
    (s₂ : VfsState (NyfsState D)) (kids₂ : Nat → List Nat) (ino₂ : Nat → Nat) (ns : Nat)
    (oldLocal newLocal : List UInt8) : Prop where
  oldSpace : Vfs.namespaceOf s oldBuffer oldPath = some (ns, oldLocal)
  newSpace : Vfs.namespaceOf s newBuffer newPath = some (ns, newLocal)
  resolved : ∃ s₁, Vfs.resolveParentNs nyfsDrivers ns oldLocal s = (.ok (p, oldName), s₁) ∧
    Vfs.resolveParentNs nyfsDrivers ns newLocal s₁ = (.ok (q, newName), s₂)
  oldName_ne : oldName ≠ []
  newName_ne : newName ≠ []
  grown : Grown k L r nodes s kids ino s₂ kids₂ ino₂
  oldCached : Cached kids₂ r p
  newCached : Cached kids₂ r q
  node : (s₂.dentries p).node = some n
  oldDisk : diskParent (s.drv.fs.volumes k) oldLocal = some (ino₂ p, oldName)
  newDisk : diskParent (s.drv.fs.volumes k) newLocal = some (ino₂ q, newName)

/-- {lit}`vfs_rename` fails before it has changed anything but the cache, or goes on in the two
directories of its paths. -/
theorem Coherent.vfsRename_rule {oldBuffer newBuffer oldPath newPath : List UInt8}
    {Q : Except Stop Unit → VfsState (NyfsState D) → Prop} (h : Coherent k L r s kids ino nodes)
    (hfail : ∀ e s', Coheres k L r s' → Q (.error e) s')
    (hrest : ∀ p q n oldName newName s₂ kids₂ ino₂ ns oldLocal newLocal,
      RenamePlaces k L r nodes s kids ino oldBuffer newBuffer oldPath newPath p q n oldName newName
        s₂ kids₂ ino₂ ns oldLocal newLocal → Eff.Post (renameIn p q n oldName newName) s₂ Q) :
    Eff.Post (Vfs.vfsRename nyfsDrivers oldBuffer newBuffer oldPath newPath) s Q := by
  have hkept : Coheres k L r s := ⟨kids, ino, nodes, h⟩
  unfold Vfs.vfsRename
  by_cases hpaths : oldPath = [] ∨ newPath = []
  · rw [if_pos hpaths]
    exact hfail _ _ hkept
  rw [if_neg hpaths]
  rcases Vfs.resolveNamespacePath_run oldBuffer oldPath s with
    ⟨e, hspace⟩ | ⟨ns, oldLocal, hns, hspace⟩
  · exact Eff.post_bind_error hspace (hfail _ _ hkept)
  refine Eff.post_bind_ok hspace ?_
  rcases Vfs.resolveNamespacePath_run newBuffer newPath s with
    ⟨e, hspace'⟩ | ⟨ns', newLocal, hns', hspace'⟩
  · exact Eff.post_bind_error hspace' (hfail _ _ hkept)
  refine Eff.post_bind_ok hspace' ?_
  dsimp only
  by_cases hsame : ns = ns'
  swap
  · rw [if_pos hsame]
    exact hfail _ _ hkept
  subst hsame
  rw [if_neg (not_not.mpr rfl)]
  have hused := h.tree.namespaceOf_used hns
  obtain ⟨s₁, kids₁, ino₁, hgrown₁, hcase₁⟩ := h.parent_cases hused oldLocal
  rcases hcase₁ with ⟨e, hold⟩ | ⟨p, oldName, hold, hp⟩
  · exact Eff.post_bind_error hold (hfail _ _ ⟨kids₁, ino₁, nodes, hgrown₁.coherent⟩)
  refine Eff.post_bind_ok hold ?_
  have hused₁ : (s₁.namespaces ns).inUse := by
    rw [hgrown₁.grows.namespaces]
    exact hused
  obtain ⟨s₂, kids₂, ino₂, hgrown₂, hcase₂⟩ := hgrown₁.coherent.parent_cases hused₁ newLocal
  have hkept₂ : Coheres k L r s₂ := ⟨kids₂, ino₂, nodes, hgrown₂.coherent⟩
  rcases hcase₂ with ⟨e, hnew⟩ | ⟨q, newName, hnew, hq⟩
  · exact Eff.post_bind_error hnew (hfail _ _ hkept₂)
  refine Eff.post_bind_ok hnew ?_
  dsimp only
  by_cases hnames : oldName = [] ∨ newName = []
  · rw [if_pos hnames]
    exact hfail _ _ hkept₂
  rw [if_neg hnames]
  rw [not_or] at hnames
  refine Eff.post_gets_bind ?_
  rcases hp.resolve_left hnames.1 with ⟨hbare, hroot⟩ | ⟨hcached, hdisk⟩
  · obtain ⟨f, hf⟩ := hgrown₂.grows.old p (hgrown₁.coherent.tree.root_used p hroot)
    have hnone : (s₂.dentries p).node = none := by
      rw [hf]
      exact hbare
    rw [hnone]
    exact hfail _ _ hkept₂
  have hcached₂ := hcached.grows hgrown₂.grows
  obtain ⟨-, n, hn, hstands⟩ := hgrown₂.coherent.shows p hcached₂
  rw [hn, hstands.opsOf]
  rcases hq.resolve_left hnames.2 with ⟨hbare, -⟩ | ⟨hqcached, hqdisk⟩
  · -- nothing is mounted where the new path leads, and the driver refuses
    refine Eff.post_bind_ok (hgrown₂.coherent.tree.tree.findChild_run p oldName) ?_
    rcases Vfs.checkNoCycle_run (cachedChild s₂.dentries p oldName) q s₂ with
      ⟨stop, hstop⟩ | ⟨hpass, -⟩
    · exact Eff.post_bind_error hstop (hfail _ _ hkept₂)
    · refine Eff.post_bind_ok hpass (Eff.post_gets_bind ?_)
      rw [hbare]
      exact hfail _ _ hkept₂
  · rw [hgrown₁.volumes] at hqdisk
    rw [← hgrown₂.same p hcached] at hdisk
    exact hrest p q n oldName newName s₂ kids₂ ino₂ ns oldLocal newLocal ⟨hns, hns', ⟨s₁, hold, hnew⟩,
      hnames.1, hnames.2, hgrown₁.trans hgrown₂, hcached₂, hqcached, hn, hdisk, hqdisk⟩

/-- {lit}`vfs_rename` keeps the invariant. -/
theorem Coherent.vfsRename_post {oldBuffer newBuffer oldPath newPath : List UInt8}
    (h : Coherent k L r s kids ino nodes)
    (hsafe : RenameSafe k L s oldBuffer newBuffer oldPath newPath) :
    Eff.Post (Vfs.vfsRename nyfsDrivers oldBuffer newBuffer oldPath newPath) s
      (fun _ s' => Coheres k L r s') := by
  refine h.vfsRename_rule (fun _ _ hkept => hkept) ?_
  intro p q n oldName newName s₂ kids₂ ino₂ ns oldLocal newLocal hplaces
  have hgrown := hplaces.grown
  obtain ⟨s₁, hold, hnew⟩ := hplaces.resolved
  have hused := h.tree.namespaceOf_used hplaces.oldSpace
  refine hgrown.coherent.rename_post hplaces.oldCached hplaces.newCached hplaces.node
    (fun t ht hno => ?_)
  obtain ⟨hnamed, hnamed'⟩ := h.tree.rename_source hused hold hplaces.oldName_ne hnew
    hplaces.newName_ne ht hno
  obtain ⟨hne, hkeeps⟩ := hsafe ns oldLocal newLocal t hplaces.oldSpace hplaces.newSpace hnamed
  refine ⟨fun hcon => hne (hnamed' hcon), fun hloses => hkeeps ?_⟩
  rw [hgrown.volumes, hgrown.cred] at hloses
  exact ⟨ino₂ p, oldName, ino₂ q, newName, nodes, hplaces.oldDisk, hplaces.newDisk, h.volume, hloses⟩

/-! ## Mounting -/

/-- Nothing is mounted anywhere. -/
structure Bare (s : VfsState (NyfsState D)) : Prop where
  tree : Vfs.Sound s (fun _ => [])
  node : ∀ d, (s.dentries d).node = none

theorem node_update_none {ds : Nat → Vfs.Dentry} (h : ∀ d, (ds d).node = none) {e : Vfs.Dentry}
    (he : e.node = none) (d x : Nat) : (Function.update ds d e x).node = none := by
  by_cases hx : x = d
  · rw [hx, Function.update_self]
    exact he
  · rw [Function.update_of_ne hx]
    exact h x

omit [ReliableDevice D] in
theorem bare_vfsInit (drv : Drivers (NyfsState D)) : Bare (Vfs.vfsInit (Vfs.boot drv)).2 := by
  refine ⟨Vfs.vfsInit_sound drv, fun d => ?_⟩
  exact node_update_none (fun _ => rfl) (e := Vfs.freshDentry [] none none) rfl 0 d

omit [ReliableDevice D] in
/-- Looking up a namespace, or creating it, mounts nothing. -/
theorem Bare.getNamespace_post (h : Bare s) (name : Name) :
    Eff.Post (Vfs.getNamespace name true) s (fun res s' => Bare s' ∧ s'.drv = s.drv ∧
      ∀ ns, res = .ok (some ns) → (s'.namespaces ns).inUse) := by
  have hsound := h.tree.getNamespace_post name
  have hnode : Eff.Post (Vfs.getNamespace name true) s (fun _ s' =>
      s'.drv = s.drv ∧ ∀ d, (s'.dentries d).node = none) := by
    unfold Vfs.getNamespace
    split
    next => exact ⟨rfl, h.node⟩
    next =>
      refine Eff.post_gets_bind ?_
      dsimp only
      split
      next => exact ⟨rfl, h.node⟩
      next =>
        rcases Vfs.allocDentry_run [] none none s with hnone | ⟨d, hd, hfree, hsome⟩
        · exact Eff.post_bind_ok hnone ⟨rfl, h.node⟩
        · refine Eff.post_bind_ok hsome ?_
          have hfresh := node_update_none h.node (e := Vfs.freshDentry [] none none) rfl d
          rcases Vfs.createNamespace_run name d { s with
              dentries := Function.update s.dentries d (Vfs.freshDentry [] none none) } with
            hnone | ⟨i, hifree, hslot⟩
          · exact Eff.post_bind_ok hnone ⟨rfl, node_update_none hfresh rfl d⟩
          · exact Eff.post_bind_ok hslot ⟨rfl, hfresh⟩
  exact ⟨⟨hsound.1, hnode.2⟩, hnode.1, hsound.2.2⟩

/-- The cache of a volume that has just been mounted holds its root. -/
theorem Bare.coherent_mounted {ns : Nat} (h : Bare s) (hns : (s.namespaces ns).inUse)
    (hstands : Stands k s.drv n nyfsRootIno) (hvolume : Sound L (s.drv.fs.volumes k) nodes)
    (hcred : s.drv.fs.cred.Fits) :
    Coherent k L (s.namespaces ns).root
      (Vfs.setDentry (s.namespaces ns).root (fun e => { e with node := some n }) s).2
      (fun _ => []) (fun _ => nyfsRootIno) nodes where
  tree := h.tree.setNode _ _
  volume := hvolume
  cred := hcred
  root := ⟨ns, hns, Or.inl rfl⟩
  roots := by
    intro d _
    by_cases hd : d = (s.namespaces ns).root
    · exact Or.inl hd
    · refine Or.inr ?_
      rw [Vfs.setDentry, Eff.modify_run]
      dsimp only
      rw [Function.update_of_ne hd]
      exact h.node d
  top := rfl
  shows := by
    rintro d (rfl | ⟨p, hp⟩)
    · refine ⟨hvolume.inventory.root.1, n, ?_, hstands⟩
      rw [Vfs.setDentry, Eff.modify_run]
      dsimp only
      rw [Function.update_self]
    · cases hp
  entry := by
    intro p c hc
    cases hc
  once := by
    rintro c d (rfl | ⟨p, hp⟩) (rfl | ⟨q, hq⟩) -
    · rfl
    · cases hq
    · cases hp
    · cases hp

/-- A volume is mounted at the root of a namespace. -/
theorem Bare.vfsMount {buffer path localPath : List UInt8} {name : Name} (h : Bare s)
    (hpath : Vfs.parseNamespacePath buffer path = .ok (name, localPath))
    (hroot : Vfs.isRootPath localPath = true) (hstands : Stands k s.drv n nyfsRootIno)
    (hvolume : Sound L (s.drv.fs.volumes k) nodes) (hcred : s.drv.fs.cred.Fits)
    (hrun : Vfs.vfsMount nyfsDrivers buffer path n s = (.ok (), s')) :
    ∃ r, Coherent k L r s' (fun _ => []) (fun _ => nyfsRootIno) nodes := by
  rw [Vfs.vfsMount] at hrun
  by_cases hempty : path = []
  · rw [if_pos hempty] at hrun
    cases hrun
  rw [if_neg hempty] at hrun
  have hpost := h.getNamespace_post name
  rw [Eff.Post] at hpost
  cases hget : Vfs.getNamespace name true s with
  | mk res s₁ =>
      rw [hget] at hpost
      obtain ⟨hbare, hdrv, hused⟩ := hpost
      cases res with
      | error e =>
          have hresolve : Vfs.resolveNamespacePath buffer path true s = (.error e, s₁) := by
            unfold Vfs.resolveNamespacePath
            rw [hpath]
            exact Eff.bind_error hget
          rw [Eff.bind_error hresolve] at hrun
          cases hrun
      | ok found =>
          cases found with
          | none =>
              have hresolve : Vfs.resolveNamespacePath buffer path true s =
                  (.error (.status .NnotFound), s₁) := by
                unfold Vfs.resolveNamespacePath
                rw [hpath]
                exact Eff.bind_ok hget
              rw [Eff.bind_error hresolve] at hrun
              cases hrun
          | some ns =>
              have hresolve : Vfs.resolveNamespacePath buffer path true s =
                  (.ok (ns, localPath), s₁) := by
                unfold Vfs.resolveNamespacePath
                rw [hpath]
                exact Eff.bind_ok hget
              rw [Eff.bind_ok hresolve] at hrun
              dsimp only at hrun
              rw [if_pos hroot, Eff.gets_bind_run, Eff.gets_bind_run, hbare.node] at hrun
              obtain rfl : s' = (Vfs.setDentry (s₁.namespaces ns).root
                  (fun e => { e with node := some n }) s₁).2 := (Prod.mk.inj hrun).2.symm
              exact ⟨_, hbare.coherent_mounted (hused ns rfl) (by rw [hdrv]; exact hstands)
                (by rw [hdrv]; exact hvolume) (by rw [hdrv]; exact hcred)⟩

omit [ReliableDevice D] in
theorem nyfsFreeVnodeData_run (data : Option Nat) (drv : Drivers (NyfsState D)) :
    ∃ drv', nyfsFreeVnodeData data drv = (.ok (), drv') := by
  cases data with
  | none => exact ⟨_, rfl⟩
  | some i =>
      rw [nyfsFreeVnodeData]
      split
      next => exact ⟨_, rfl⟩
      next => exact ⟨_, rfl⟩

/-- {lit}`nyfs_mount` at the root of a namespace. -/
theorem Bare.mountRoot {buffer path localPath : List UInt8} {name : Name} (h : Bare s)
    (hpath : Vfs.parseNamespacePath buffer path = .ok (name, localPath))
    (hroot : Vfs.isRootPath localPath = true) (hvolume : Sound L (s.drv.fs.volumes k) nodes)
    (hcred : s.drv.fs.cred.Fits) (hrun : Nyfs.mountRoot nyfsDrivers k buffer path s = (.ok (), s')) :
    ∃ r, Coherent k L r s' (fun _ => []) (fun _ => nyfsRootIno) nodes := by
  have htype : vnodeType ((s.drv.fs.volumes k).view.inode nyfsRootIno) = 2 :=
    if_pos hvolume.inventory.root.2
  rw [Nyfs.mountRoot] at hrun
  rcases makeVnode_cases s.drv k nyfsRootIno 2 with ⟨m, slot, hm, hslot, hmake⟩ |
    ⟨hno, vnodes, hmake, -⟩
  · have hcall : Vfs.callDriver (makeVnode k nyfsRootIno 2) s =
        (.ok (some m), { s with drv := withVnode s.drv m slot k nyfsRootIno 2 }) := by
      rw [Vfs.callDriver, hmake]
    have hbare : Bare { s with drv := withVnode s.drv m slot k nyfsRootIno 2 } :=
      ⟨h.tree.withDrv _, h.node⟩
    have hstands := stands_withVnode s.drv m slot k nyfsRootIno
    rw [htype] at hstands
    rw [Eff.bind_ok hcall] at hrun
    dsimp only at hrun
    cases hmount : Vfs.vfsMount nyfsDrivers buffer path m
        { s with drv := withVnode s.drv m slot k nyfsRootIno 2 } with
    | mk res s₁ =>
        have hattempt : Eff.attempt (Vfs.vfsMount nyfsDrivers buffer path m)
            { s with drv := withVnode s.drv m slot k nyfsRootIno 2 } = (.ok res, s₁) := by
          rw [Eff.attempt, hmount]
        rw [Eff.bind_ok hattempt] at hrun
        cases res with
        | error e =>
            dsimp only at hrun
            rw [Eff.gets_bind_run] at hrun
            obtain ⟨drv, hfree⟩ := nyfsFreeVnodeData_run (s₁.drv.vnodes m).fsPrivate s₁.drv
            have hcall' : Vfs.callDriver (nyfsFreeVnodeData (s₁.drv.vnodes m).fsPrivate) s₁ =
                (.ok (), { s₁ with drv := drv }) := by
              rw [Vfs.callDriver, hfree]
            rw [Eff.bind_ok hcall'] at hrun
            cases hrun
        | ok u =>
            obtain rfl : s₁ = s' := (Prod.mk.inj hrun).2
            exact hbare.vfsMount hpath hroot hstands hvolume hcred hmount
  · have hcall : Vfs.callDriver (makeVnode k nyfsRootIno 2) s =
        (.error (.status .NoutOfMemory), { s with drv := { s.drv with vnodes := vnodes } }) := by
      rw [Vfs.callDriver, hmake]
    rw [Eff.bind_error hcall] at hrun
    cases hrun

/-! ## Calls through handles -/

/-- A write leaves the type of its inode. -/
theorem FileWrite.type_eq {V V' : View} {i off : Nat} {bytes : List UInt8} {res : Except Stop Nat}
    (h : FileWrite L V nodes i off bytes V' nodes' res) : (V'.inode i).type = (V.inode i).type := by
  cases h with
  | written ds root hplan hdata hinode =>
      rw [hinode]
      rfl
  | full taken hne hplan htaken hsame hinode => rw [hinode]
  | wrapped ds hne hplan hwrap hlt hinode => rw [hinode]

theorem Sound.fileWrite_step {i : Nat} (h : Sound L v nodes) (hi : Live L v.view i) (off : Nat)
    (bytes : List UInt8) :
    ∃ nodes', Sound L (fileWrite i off bytes v).2 nodes' ∧
      Touches L v.view nodes i (fileWrite i off bytes v).2.view nodes' ∧
      (∀ j, j ≠ i → (fileWrite i off bytes v).2.view.inode j = v.view.inode j) ∧
      FileWrite L v.view nodes i off bytes (fileWrite i off bytes v).2.view nodes'
        (fileWrite i off bytes v).1 := by
  have hread := h.inventory.toOwned.does_readInode (D := D) h.valid hi
  obtain ⟨res, V', nodes', hdoes, hinv, htouches, hinodes, hout⟩ :=
    h.inventory.inodeWrite (D := D) h.valid hi off bytes
  obtain ⟨hres, hview, hsound⟩ := h.does (m := fileWrite i off bytes)
    (does_requireWritable.bind (hread.bind hdoes)) hinv
  refine ⟨nodes', hsound, ?_⟩
  rw [hres, hview]
  exact ⟨htouches, hinodes, hout⟩

theorem reads_fileRead (i off size : Nat) : Eff.Reads (fileRead i off size : NyfsM D _) := by
  refine (reads_readInode i).bind (fun x => ?_)
  exact Eff.reads_ite (Eff.reads_pure _) (reads_extentReadAt _ _ _)

/-- The volume after a write to a live inode. -/
theorem Coherent.fileWrite {i : Nat} (h : Coherent k L r s kids ino nodes)
    (hi : Live L (s.drv.fs.volumes k).view i) (off : Nat) (bytes : List UInt8) :
    Coheres k L r { s with
      drv := Nyfs.withVolume s.drv k (Nyfs.fileWrite i off bytes (s.drv.fs.volumes k)).2 } := by
  obtain ⟨nodes', hsound, htouches, -, hout⟩ := h.volume.fileWrite_step hi off bytes
  refine ⟨kids, ino, nodes', h.withVolume hsound (fun d hd => ?_) (fun p c _ => ?_)⟩
  · by_cases hd' : ino d = i
    · subst hd'
      exact ⟨(live_congr htouches.inodeBit).mpr hi, hout.type_eq⟩
    · exact (htouches.others (ino d) (h.live hd) hd').keepsInodes
  · rw [htouches.finds]

/-- The volume and the inode that an open handle names. -/
def handleInode (drv : Drivers (NyfsState D)) (handle : Handle) : Option (Nat × Nat) :=
  handle.fsPrivate.bind (fun slot =>
    (drv.fs.handleSlots slot).entry.vol.map (fun vol => (vol, (drv.fs.handleSlots slot).entry.ino)))

omit [ReliableDevice D] in
theorem handleEntry_eq (drv : Drivers (NyfsState D)) (handle : Handle) :
    handleEntry handle drv = match handleInode drv handle with
      | none => (.error (.status .NinvalidArg), drv)
      | some entry => (.ok entry, drv) := by
  rw [handleEntry, Eff.gets_bind_run, handleInode]
  cases handle.fsPrivate with
  | none => rfl
  | some slot =>
      rw [Option.map_some, Option.bind_some]
      rcases (drv.fs.handleSlots slot).entry with ⟨vol, ino⟩
      cases vol with
      | none => rfl
      | some vol => rfl

/-- Every vnode with operations has those of NyFS. -/
theorem opsOf_nyfsDrivers (s : VfsState (NyfsState D)) (node : Option Nat) :
    Vfs.opsOf nyfsDrivers s node = none ∨ ∃ n, Vfs.opsOf nyfsDrivers s node = some (n, nyfsOps) := by
  cases node with
  | none => exact Or.inl rfl
  | some n =>
      rw [Vfs.opsOf]
      cases (s.drv.vnodes n).ops with
      | none => exact Or.inl rfl
      | some k => exact Or.inr ⟨n, rfl⟩

/-- A handle behind a read or a write of some bytes. -/
def advanced (handle : Handle) (count : Nat) : Handle :=
  { handle with offset := (handle.offset + count) % 2 ^ 64 }

/-- A read through a handle reads the volume. -/
theorem vfsRead_eq (s : VfsState (NyfsState D)) (handle : Handle) (size : Nat) :
    (∃ e, Vfs.vfsRead nyfsDrivers handle size s = (.error (.status e), s)) ∨
      ∃ vol i, handleInode s.drv handle = some (vol, i) ∧
        Vfs.vfsRead nyfsDrivers handle size s =
          ((fileRead i handle.offset size (s.drv.fs.volumes vol)).1.map (fun bytes =>
            (bytes, advanced handle bytes.length)), s) := by
  have hentry := handleEntry_eq s.drv handle
  rw [Vfs.vfsRead, Eff.gets_bind_run]
  rcases opsOf_nyfsDrivers s handle.vnode with hops | ⟨n, hops⟩
  · rw [hops]
    exact Or.inl ⟨_, rfl⟩
  rw [hops]
  dsimp only [nyfsOps]
  cases hinode : handleInode s.drv handle with
  | none =>
      rw [hinode] at hentry
      have hcall : Vfs.callDriver (nyfsRead handle size) s = (.error (.status .NinvalidArg), s) := by
        rw [Vfs.callDriver, nyfsRead, Eff.bind_error hentry]
      exact Or.inl ⟨_, Eff.bind_error hcall⟩
  | some entry =>
      obtain ⟨vol, i⟩ := entry
      rw [hinode] at hentry
      refine Or.inr ⟨vol, i, rfl, ?_⟩
      have hcall : Vfs.callDriver (nyfsRead handle size) s =
          ((fileRead i handle.offset size (s.drv.fs.volumes vol)).1, s) := by
        rw [Vfs.callDriver, nyfsRead, Eff.bind_ok hentry]
        dsimp only
        rw [onVolume_reads (reads_fileRead i handle.offset size)]
      cases hread : (fileRead i handle.offset size (s.drv.fs.volumes vol)).1 with
      | error e =>
          rw [hread] at hcall
          exact Eff.bind_error hcall
      | ok bytes =>
          rw [hread] at hcall
          exact Eff.bind_ok hcall

/-- A write through a handle that has a driver and an inode. -/
theorem vfsWrite_run {s : VfsState (NyfsState D)} {handle : Handle} {vol i n : Nat}
    (hops : Vfs.opsOf nyfsDrivers s handle.vnode = some (n, nyfsOps))
    (hinode : handleInode s.drv handle = some (vol, i)) (bytes : List UInt8) :
    Vfs.vfsWrite nyfsDrivers handle bytes s =
      ((Nyfs.fileWrite i handle.offset bytes (s.drv.fs.volumes vol)).1.map (fun written =>
        (written, advanced handle written)),
        { s with
          drv := withVolume s.drv vol
            (Nyfs.fileWrite i handle.offset bytes (s.drv.fs.volumes vol)).2 }) := by
  have hentry := handleEntry_eq s.drv handle
  rw [hinode] at hentry
  have hcall : Vfs.callDriver (nyfsWrite handle bytes) s =
      ((Nyfs.fileWrite i handle.offset bytes (s.drv.fs.volumes vol)).1, { s with
        drv := withVolume s.drv vol
          (Nyfs.fileWrite i handle.offset bytes (s.drv.fs.volumes vol)).2 }) := by
    rw [Vfs.callDriver, nyfsWrite, Eff.bind_ok hentry]
    rfl
  rw [Vfs.vfsWrite, Eff.gets_bind_run, hops]
  dsimp only [nyfsOps]
  cases hwrite : (Nyfs.fileWrite i handle.offset bytes (s.drv.fs.volumes vol)).1 with
  | error e =>
      rw [hwrite] at hcall
      exact Eff.bind_error hcall
  | ok written =>
      rw [hwrite] at hcall
      exact Eff.bind_ok hcall

/-- A write through a handle writes to the volume. -/
theorem vfsWrite_eq (s : VfsState (NyfsState D)) (handle : Handle) (bytes : List UInt8) :
    (∃ e, Vfs.vfsWrite nyfsDrivers handle bytes s = (.error (.status e), s)) ∨
      ∃ vol i, handleInode s.drv handle = some (vol, i) ∧
        Vfs.vfsWrite nyfsDrivers handle bytes s =
          ((fileWrite i handle.offset bytes (s.drv.fs.volumes vol)).1.map (fun written =>
            (written, advanced handle written)),
            { s with
              drv := withVolume s.drv vol
                (fileWrite i handle.offset bytes (s.drv.fs.volumes vol)).2 }) := by
  rcases opsOf_nyfsDrivers s handle.vnode with hops | ⟨n, hops⟩
  · rw [Vfs.vfsWrite, Eff.gets_bind_run, hops]
    exact Or.inl ⟨_, rfl⟩
  cases hinode : handleInode s.drv handle with
  | none =>
      have hentry := handleEntry_eq s.drv handle
      rw [hinode] at hentry
      have hcall : Vfs.callDriver (nyfsWrite handle bytes) s = (.error (.status .NinvalidArg), s) := by
        rw [Vfs.callDriver, nyfsWrite, Eff.bind_error hentry]
      rw [Vfs.vfsWrite, Eff.gets_bind_run, hops]
      exact Or.inl ⟨_, Eff.bind_error hcall⟩
  | some entry => exact Or.inr ⟨entry.1, entry.2, rfl, vfsWrite_run hops hinode bytes⟩

omit [ReliableDevice D] in
/-- Closing a handle gives back its slot. -/
theorem nyfsClose_run (handle : Handle) (drv : Drivers (NyfsState D)) :
    ∃ slots, nyfsClose handle drv = (.ok { handle with fsPrivate := none },
      { drv with fs := { drv.fs with handleSlots := slots } }) := by
  rw [nyfsClose]
  cases handle.fsPrivate with
  | none => exact ⟨drv.fs.handleSlots, rfl⟩
  | some slot =>
      rw [nyfsFreeHandleData]
      split
      next => exact ⟨_, rfl⟩
      next => exact ⟨drv.fs.handleSlots, rfl⟩

theorem vfsClose_state (s : VfsState (NyfsState D)) (handle : Handle) :
    ∃ slots, (Vfs.vfsClose nyfsDrivers handle s).2 =
      { s with drv := { s.drv with fs := { s.drv.fs with handleSlots := slots } } } := by
  rw [Vfs.vfsClose, Eff.gets_bind_run]
  rcases opsOf_nyfsDrivers s handle.vnode with hops | ⟨n, hops⟩
  · rw [hops]
    exact ⟨s.drv.fs.handleSlots, rfl⟩
  obtain ⟨slots, hclose⟩ := nyfsClose_run handle s.drv
  have hcall : Vfs.callDriver (nyfsClose handle) s = (.ok { handle with fsPrivate := none },
      { s with drv := { s.drv with fs := { s.drv.fs with handleSlots := slots } } }) := by
    rw [Vfs.callDriver, hclose]
  rw [hops]
  dsimp only [nyfsOps]
  rw [Eff.bind_ok hcall]
  exact ⟨slots, rfl⟩

/-! ## Runs -/

/-- A call on the mounted volume, or a change of the process that makes the calls.  The buffers are
the stack contents that the path parser finds. -/
inductive MountCall
  | create (buffer path : List UInt8) (mode : Nat)
  | mkdir (buffer path : List UInt8) (mode : Nat)
  | unlink (buffer path : List UInt8)
  | rename (oldBuffer newBuffer oldPath newPath : List UInt8)
  | openFile (buffer path : List UInt8) (flags : Nat)
  | readdir (buffer path : List UInt8) (index nameMax : Nat)
  | read (handle : Handle) (size : Nat)
  | write (handle : Handle) (bytes : List UInt8)
  | close (handle : Handle)
  | become (cred : Cred)

/-- The state that a call leaves. -/
def MountCall.exec (s : VfsState (NyfsState D)) : MountCall → VfsState (NyfsState D)
  | create buffer path mode => (Vfs.vfsCreate nyfsDrivers buffer path mode s).2
  | mkdir buffer path mode => (Vfs.vfsMkdir nyfsDrivers buffer path mode s).2
  | unlink buffer path => (Vfs.vfsUnlink nyfsDrivers buffer path s).2
  | rename oldBuffer newBuffer oldPath newPath =>
      (Vfs.vfsRename nyfsDrivers oldBuffer newBuffer oldPath newPath s).2
  | openFile buffer path flags => (Vfs.vfsOpen nyfsDrivers buffer path flags s).2
  | readdir buffer path index nameMax => (Vfs.vfsReaddir nyfsDrivers buffer path index nameMax s).2
  | read handle size => (Vfs.vfsRead nyfsDrivers handle size s).2
  | write handle bytes => (Vfs.vfsWrite nyfsDrivers handle bytes s).2
  | close handle => (Vfs.vfsClose nyfsDrivers handle s).2
  | become cred => { s with drv := { s.drv with fs := { s.drv.fs with cred := cred } } }

/-- The values of a credential are those of its C type. -/
def MountCall.Fits : MountCall → Prop
  | become cred => cred.Fits
  | _ => True

/-- A rename keeps the cache, and a write goes to an inode that is in use. -/
def MountCall.Safe (k : Nat) (L : Layout) (s : VfsState (NyfsState D)) : MountCall → Prop
  | rename oldBuffer newBuffer oldPath newPath => RenameSafe k L s oldBuffer newBuffer oldPath newPath
  | write handle _ => ∀ i, handleInode s.drv handle = some (k, i) → Live L (s.drv.fs.volumes k).view i
  | _ => True

/-- A volume that a format and requests have left is mounted at the root of a namespace, and calls
follow that meet a condition on the state before them. -/
inductive CacheRun (p : MkfsParams) (d : D) (k : Nat) (ok : VfsState (NyfsState D) → MountCall → Prop) :
    VfsState (NyfsState D) → Prop
  | start {drv : Drivers (NyfsState D)} {buffer path localPath : List UInt8} {name : Name}
      {s : VfsState (NyfsState D)} (hvolume : Reachable anyRequest p d (drv.fs.volumes k))
      (hcred : drv.fs.cred.Fits)
      (hpath : Vfs.parseNamespacePath buffer path = .ok (name, localPath))
      (hroot : Vfs.isRootPath localPath = true)
      (hmount : mountRoot nyfsDrivers k buffer path (Vfs.vfsInit (Vfs.boot drv)).2 = (.ok (), s)) :
      CacheRun p d k ok s
  | step {s : VfsState (NyfsState D)} (c : MountCall) (hrun : CacheRun p d k ok s) (hfits : c.Fits)
      (hok : ok s c) : CacheRun p d k ok (c.exec s)

/-- A write to another volume. -/
theorem Coherent.otherVolume (h : Coherent k L r s kids ino nodes) {vol : Nat} (hvol : vol ≠ k)
    (v' : Volume D) :
    Coherent k L r { s with drv := Nyfs.withVolume s.drv vol v' } kids ino nodes :=
  h.withDrv_same ⟨fun _ _ => rfl, fun _ _ => rfl⟩ (Function.update_of_ne (Ne.symm hvol) _ _) h.cred

/-- One call keeps the invariant. -/
theorem Coheres.exec (h : Coheres k L r s) (c : MountCall) (hfits : c.Fits) (hsafe : c.Safe k L s) :
    Coheres k L r (c.exec s) := by
  obtain ⟨kids, ino, nodes, h⟩ := h
  cases c with
  | create buffer path mode => exact h.makeEntry false buffer path mode
  | mkdir buffer path mode => exact h.makeEntry true buffer path mode
  | unlink buffer path => exact h.vfsUnlink buffer path
  | rename oldBuffer newBuffer oldPath newPath => exact h.vfsRename_post hsafe
  | openFile buffer path flags => exact h.vfsOpen buffer path flags
  | readdir buffer path index nameMax => exact h.vfsReaddir buffer path index nameMax
  | read handle size =>
      rw [MountCall.exec]
      rcases vfsRead_eq s handle size with ⟨e, hread⟩ | ⟨vol, i, -, hread⟩
      · rw [hread]
        exact ⟨kids, ino, nodes, h⟩
      · rw [hread]
        exact ⟨kids, ino, nodes, h⟩
  | write handle bytes =>
      rw [MountCall.exec]
      rcases vfsWrite_eq s handle bytes with ⟨e, hwrite⟩ | ⟨vol, i, hinode, hwrite⟩
      · rw [hwrite]
        exact ⟨kids, ino, nodes, h⟩
      · rw [hwrite]
        by_cases hvol : vol = k
        · subst hvol
          exact h.fileWrite (hsafe i hinode) handle.offset bytes
        · exact ⟨kids, ino, nodes, h.otherVolume hvol _⟩
  | close handle =>
      rw [MountCall.exec]
      obtain ⟨slots, hclose⟩ := vfsClose_state s handle
      rw [hclose]
      exact ⟨kids, ino, nodes, h.withHandleSlots slots⟩
  | become cred =>
      exact ⟨kids, ino, nodes, h.withDrv_same ⟨fun _ _ => rfl, fun _ _ => rfl⟩ rfl hfits⟩

/-- The cache shows the volume after every run of safe calls. -/
theorem CacheRun.coheres {p : MkfsParams} {d : D} {ok : VfsState (NyfsState D) → MountCall → Prop}
    (hsmall : p.Small) (hok : ∀ s c, ok s c → c.Safe k p.layout s) (h : CacheRun p d k ok s) :
    ∃ r, Coheres k p.layout r s := by
  induction h with
  | start hvolume hcred hpath hroot hmount =>
      obtain ⟨nodes, hsound⟩ := hvolume.inventory hsmall
      obtain ⟨r, hcoherent⟩ := (bare_vfsInit _).mountRoot hpath hroot hsound hcred hmount
      exact ⟨r, _, _, nodes, hcoherent⟩
  | step c _ hfits hstep ih =>
      obtain ⟨r, hcoheres⟩ := ih
      exact ⟨r, hcoheres.exec c hfits (hok _ c hstep)⟩

end Nyfs
end Nyxis
