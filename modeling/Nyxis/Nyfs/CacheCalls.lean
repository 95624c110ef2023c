import Nyxis.Nyfs.Cache

/-!
# The dentry cache behind a call

The calls of the virtual file system change the volume and the cache in two steps, and the cache goes
on showing the volume.

Main results:

- Theorems {lit}`Coherent.drop` and {lit}`Coherent.move`: a dentry leaves the cache or changes its
  place.
- Theorems {lit}`Coherent.makeEntry`, {lit}`Coherent.vfsOpen`, {lit}`Coherent.vfsReaddir` and
  {lit}`Coherent.vfsUnlink`: the calls keep the invariant.
-/

namespace Nyxis
namespace Nyfs

open Vfs (VfsState Drivers Handle Name cachedChild)

variable {D : Type} [ReliableDevice D] {L : Layout} {v : Volume D} {nodes nodes' : Nat → Node}
variable {k r : Nat} {s s' : VfsState (NyfsState D)} {drv drv' : Drivers (NyfsState D)}
variable {kids : Nat → List Nat} {ino : Nat → Nat} {cred : Cred} {name : Name}
variable {i t n d c p cur : Nat}

/-! ## The volume -/

/-- A call on the volume, from what it does to the view. -/
theorem Sound.does {α : Type} {m : NyfsM D α} {res : Except Stop α} {V' : View}
    (h : Sound L v nodes) (hdoes : Does L v.view m res V') (hinv : Inventory L V' nodes') :
    (m v).1 = res ∧ (m v).2.view = V' ∧ Sound L (m v).2 nodes' := by
  obtain ⟨v', hrun, hmounted, hview, -⟩ := hdoes.run h.valid h.mounted rfl
  rw [hrun]
  rw [← hview] at hinv
  exact ⟨rfl, hview, h.valid, hmounted, hinv⟩

/-- Another content of one volume. -/
def withVolume (drv : Drivers (NyfsState D)) (k : Nat) (v : Volume D) : Drivers (NyfsState D) :=
  { drv with fs := { drv.fs with volumes := Function.update drv.fs.volumes k v } }

omit [ReliableDevice D] in
@[simp]
theorem withVolume_self (drv : Drivers (NyfsState D)) (k : Nat) (v : Volume D) :
    (withVolume drv k v).fs.volumes k = v :=
  Function.update_self ..

/-- The inodes of the cache live on with their types. -/
def KeepsInodes (L : Layout) (v v' : Volume D) (i : Nat) : Prop :=
  Live L v'.view i ∧ (v'.view.inode i).type = (v.view.inode i).type

theorem Kept.keepsInodes {v' : Volume D} (h : Kept L v.view nodes v'.view nodes' i) :
    KeepsInodes L v v' i :=
  ⟨h.live, Inode.type_of_core h.core⟩

/-- The volume has changed, but no inode and no record that the cache shows. -/
theorem Coherent.withVolume {v' : Volume D} (h : Coherent k L r s kids ino nodes)
    (hvolume : Sound L v' nodes')
    (hlive : ∀ d, Cached kids r d → KeepsInodes L (s.drv.fs.volumes k) v' (ino d))
    (hfind : ∀ p c, c ∈ kids p → (nodes' (ino p)).find (s.dentries c).name =
      (nodes (ino p)).find (s.dentries c).name) :
    Coherent k L r { s with drv := Nyfs.withVolume s.drv k v' } kids ino nodes' := by
  refine h.withDrv ⟨fun _ _ => rfl, fun _ _ => rfl⟩ ?_ h.cred (fun d hd => ?_)
    (fun p c type hc htype => ⟨type, ?_⟩)
  · rw [withVolume_self]
    exact hvolume
  · rw [withVolume_self]
    exact hlive d hd
  · rw [hfind p c hc]
    exact htype

/-! ## Dentries that leave the cache or change their place -/

/-- The dentries of the cache without one that has no children. -/
theorem Coherent.cached_dropped (h : Coherent k L r s kids ino nodes) (hd : d ∈ kids p)
    (hnone : kids d = []) {x : Nat} :
    Cached (Vfs.dropped kids p d) r x ↔ Cached kids r x ∧ x ≠ d := by
  have hout : ∀ e, d ∉ Vfs.dropped kids p d e := by
    intro e he
    have hep := h.tree.tree.parent_unique (Vfs.mem_of_mem_dropped he) hd
    subst hep
    have hne : e ≠ d := by
      rintro rfl
      exact h.tree.tree.irrefl e hd
    rw [Vfs.dropped, Function.update_of_ne hne, Function.update_self] at he
    exact (h.tree.tree.linked e).nodup.not_mem_erase he
  constructor
  · rintro (rfl | ⟨e, he⟩)
    · refine ⟨Or.inl rfl, ?_⟩
      rintro rfl
      exact h.root_not_kid p hd
    · refine ⟨Or.inr ⟨e, Vfs.mem_of_mem_dropped he⟩, ?_⟩
      rintro rfl
      exact hout e he
  · rintro ⟨rfl | ⟨e, he⟩, hne⟩
    · exact Or.inl rfl
    · refine Or.inr ⟨e, Vfs.mem_dropped he hne ?_⟩
      rintro rfl
      rw [hnone] at he
      cases he

/-- A dentry without children leaves the cache, with its vnode. -/
theorem Coherent.drop (h : Coherent k L r s kids ino nodes) (hd : d ∈ kids p) (hnone : kids d = [])
    {ds : Nat → Vfs.Dentry} (hds : Vfs.Released s.dentries kids p d ds) :
    Coherent k L r { s with
        dentries := ds, drv := (Vfs.vfsFreeVnode (s.dentries d).node s.drv).2 }
      (Vfs.dropped kids p d) ino nodes := by
  have hcached : ∀ x, Cached (Vfs.dropped kids p d) r x → Cached kids r x ∧ x ≠ d :=
    fun x hx => (h.cached_dropped hd hnone).mp hx
  have hroots : ∀ x, Vfs.IsRoot s x → x ≠ d := by
    rintro x hx rfl
    exact h.isRoot_not_kid hx p hd
  have hrel : Vfs.Releasable s d := by
    refine ⟨fun hroot => hroots d hroot rfl, fun x hx _ => ?_⟩
    rcases h.tree.seated x hx with ⟨e, he⟩ | hnext
    · exact absurd he (h.isRoot_not_kid hx e)
    · exact hnext
  obtain ⟨-, n, hnode, -⟩ := h.shows d (Or.inr ⟨p, hd⟩)
  refine ⟨h.tree.release hd hrel hds _, ?_, ?_, h.root, ?_, h.top, ?_, ?_, ?_⟩
  · rw [hnode]
    exact h.volume
  · rw [hnode]
    exact h.cred
  · intro x hx
    rcases h.roots x hx with rfl | hbare
    · exact Or.inl rfl
    · exact Or.inr ((hds.labels x (hroots x hx)).2.trans hbare)
  · intro x hx
    obtain ⟨hx', hne⟩ := hcached x hx
    obtain ⟨hlive, m, hm, slot, hvnode, hdata⟩ := h.shows x hx'
    -- the vnode that is freed is not this one
    have hmn : m ≠ n := by
      rintro rfl
      exact hne (h.node_inj hx' (Or.inr ⟨p, hd⟩) (hm.trans hnode.symm))
    rw [hnode]
    refine ⟨hlive, m, (hds.labels x hne).2.trans hm, slot, ?_, hdata⟩
    exact (Function.update_of_ne hmn _ _).trans hvnode
  · intro e x hx
    have hxe := Vfs.mem_of_mem_dropped hx
    obtain ⟨he, type, hfind⟩ := h.entry e x hxe
    have hed : e ≠ d := by
      rintro rfl
      rw [hnone] at hxe
      cases hxe
    refine ⟨(h.cached_dropped hd hnone).mpr ⟨he, hed⟩, type, ?_⟩
    rw [(hds.labels x (hcached x (Or.inr ⟨e, hx⟩)).2).1]
    exact hfind
  · intro x y hx hy heq
    exact h.once x y (hcached x hx).1 (hcached y hy).1 heq

/-- The children after a move are those before it, and the dentry that has moved. -/
theorem Coherent.mem_of_mem_moved (h : Coherent k L r s kids ino nodes) (hd : d ∈ kids p) {q e x : Nat}
    (hx : x ∈ Vfs.moved kids p q d e) : (x = d ∧ e = q) ∨ (x ≠ d ∧ x ∈ kids e) := by
  have hrest : ∀ e, x ∈ Function.update kids p ((kids p).erase d) e → x ≠ d ∧ x ∈ kids e := by
    intro e hmem
    by_cases hep : e = p
    · subst hep
      rw [Function.update_self] at hmem
      exact (h.tree.tree.linked e).nodup.mem_erase_iff.mp hmem
    · rw [Function.update_of_ne hep] at hmem
      refine ⟨?_, hmem⟩
      rintro rfl
      exact hep (h.tree.tree.parent_unique hmem hd)
  rw [Vfs.moved] at hx
  by_cases heq : e = q
  · subst heq
    rw [Function.update_self, List.mem_cons] at hx
    exact hx.imp (fun hxd => ⟨hxd, rfl⟩) (hrest e)
  · rw [Function.update_of_ne heq] at hx
    exact Or.inr (hrest e hx)

/-- A dentry changes its place in the cache as its name does on the volume. -/
theorem Coherent.move {q : Nat} {newName : Name} {v' : Volume D} {ds : Nat → Vfs.Dentry}
    (h : Coherent k L r s kids ino nodes) (hd : d ∈ kids p) (hq : Cached kids r q)
    (hds : Vfs.Relocated s.dentries kids p q d newName ds) (hname : NameOk newName)
    (hvolume : Sound L v' nodes')
    (hlive : ∀ x, Cached kids r x → KeepsInodes L (s.drv.fs.volumes k) v' (ino x))
    (hfind : ∀ e x, x ∈ kids e → x ≠ d → (nodes' (ino e)).find (s.dentries x).name =
      (nodes (ino e)).find (s.dentries x).name)
    (hself : ∃ type, (nodes' (ino q)).find newName = some (ino d, type)) :
    Coherent k L r { s with dentries := ds, drv := Nyfs.withVolume s.drv k v' }
      (Vfs.moved kids p q d) ino nodes' := by
  have hback : ∀ x, Cached (Vfs.moved kids p q d) r x → Cached kids r x := by
    rintro x (rfl | ⟨e, he⟩)
    · exact Or.inl rfl
    · rcases h.mem_of_mem_moved hd he with ⟨rfl, -⟩ | ⟨-, hmem⟩
      · exact Or.inr ⟨p, hd⟩
      · exact Or.inr ⟨e, hmem⟩
  have hforth : ∀ x, Cached kids r x → Cached (Vfs.moved kids p q d) r x := by
    rintro x (rfl | ⟨e, he⟩)
    · exact Or.inl rfl
    · by_cases hxd : x = d
      · rw [hxd]
        exact Or.inr ⟨q, Vfs.mem_moved_self⟩
      · exact Or.inr ⟨e, Vfs.mem_moved he hxd⟩
  refine ⟨(h.tree.relocate hds).withDrv _, ?_, h.cred, h.root, ?_, h.top, ?_, ?_, ?_⟩
  · rw [withVolume_self]
    exact hvolume
  · intro x hx
    rcases h.roots x hx with rfl | hbare
    · exact Or.inl rfl
    · exact Or.inr ((hds.node x).trans hbare)
  · intro x hx
    obtain ⟨-, m, hm, hstands⟩ := h.shows x (hback x hx)
    obtain ⟨hlive', htype⟩ := hlive x (hback x hx)
    refine ⟨by rw [withVolume_self]; exact hlive', m, (hds.node x).trans hm, ?_⟩
    exact hstands.keeps ⟨fun _ _ => rfl, fun _ _ => rfl⟩ (by rw [withVolume_self]; exact htype)
  · intro e x hx
    rcases h.mem_of_mem_moved hd hx with ⟨rfl, rfl⟩ | ⟨hne, hmem⟩
    · refine ⟨hforth e hq, ?_⟩
      rw [hds.name_self, hname.take_eq]
      exact hself
    · obtain ⟨he, type, htype⟩ := h.entry e x hmem
      refine ⟨hforth e he, type, ?_⟩
      rw [hds.names x hne, hfind e x hmem hne]
      exact htype
  · intro x y hx hy heq
    exact h.once x y (hback x hx) (hback y hy) heq

/-! ## The driver's calls -/

omit [ReliableDevice D] in
theorem onVolume_eq {α : Type} (k : Nat) (m : NyfsM D α) (drv : Drivers (NyfsState D)) :
    onVolume k m drv = ((m (drv.fs.volumes k)).1, withVolume drv k (m (drv.fs.volumes k)).2) :=
  rfl

/-- {lit}`nyfs_open` reads the volume and takes a slot for the open file. -/
theorem nyfsOpen_eq (h : VnodeOf drv n k i) (flags : Nat) (handle : Handle) :
    nyfsOpen n flags handle drv =
      match (openNode i flags drv.fs.cred (drv.fs.volumes k)).1 with
      | .error e => (.error e, drv)
      | .ok () =>
          match Vfs.firstFree (fun j => (drv.fs.handleSlots j).inUse) nyfsMaxHandles with
          | none => (.error (.status .NoutOfMemory), drv)
          | some slot => (.ok { handle with fsPrivate := some slot }, { drv with
              fs := { drv.fs with
                handleSlots := Function.update drv.fs.handleSlots slot ⟨true, ⟨some k, i⟩⟩ } }) := by
  have hon := onVolume_reads (reads_openNode i flags drv.fs.cred) k drv
  rw [nyfsOpen, Eff.bind_ok h.run]
  dsimp only
  rw [Eff.gets_bind_run]
  cases hopen : (openNode i flags drv.fs.cred (drv.fs.volumes k)).1 with
  | error e =>
      rw [hopen] at hon
      exact Eff.bind_error hon
  | ok u =>
      rw [hopen] at hon
      rw [Eff.bind_ok hon]
      have halloc := nyfsAllocHandleData_eq drv ⟨some k, i⟩
      cases hslot : Vfs.firstFree (fun j => (drv.fs.handleSlots j).inUse) nyfsMaxHandles with
      | none =>
          rw [hslot] at halloc
          rw [Eff.bind_ok halloc]
          rfl
      | some slot =>
          rw [hslot] at halloc
          rw [Eff.bind_ok halloc]
          rfl

/-- {lit}`nyfs_readdir` reads the volume. -/
theorem nyfsReaddir_state (h : VnodeOf drv n k i) (index nameMax : Nat) :
    (nyfsReaddir n index nameMax drv).2 = drv := by
  rw [nyfsReaddir]
  split
  next => rfl
  next =>
    rw [Eff.bind_ok h.run]
    dsimp only
    rw [Eff.gets_bind_run]
    have hon := onVolume_reads (reads_readdirNode i drv.fs.cred index (nameMax - 1)) k drv
    cases hread : (readdirNode i drv.fs.cred index (nameMax - 1) (drv.fs.volumes k)).1 with
    | error e =>
        rw [hread] at hon
        rw [Eff.bind_error hon]
    | ok view =>
        rw [hread] at hon
        rw [Eff.bind_ok hon]
        rfl

/-- {lit}`nyfs_create` and {lit}`nyfs_mkdir` make an inode with its name, and then a vnode. -/
theorem nyfsMake_eq (h : VnodeOf drv n k i) (isDir : Bool) (name : Name) (mode : Nat) :
    nyfsMake isDir n name mode drv =
      match makeNode isDir i name mode drv.fs.cred (drv.fs.volumes k) with
      | (.error e, v') => (.error e, withVolume drv k v')
      | (.ok t, v') => makeVnode k t (if isDir then 2 else 1) (withVolume drv k v') := by
  have hon := onVolume_eq k (makeNode isDir i name mode drv.fs.cred) drv
  rw [nyfsMake, Eff.bind_ok h.run]
  dsimp only
  rw [Eff.gets_bind_run]
  cases hmake : makeNode isDir i name mode drv.fs.cred (drv.fs.volumes k) with
  | mk res v' =>
      rw [hmake] at hon
      cases res with
      | error e => exact Eff.bind_error hon
      | ok t => exact Eff.bind_ok hon

/-- {lit}`nyfs_unlink` works on the volume. -/
theorem nyfsUnlink_eq (h : VnodeOf drv n k i) (name : Name) :
    nyfsUnlink n name drv = onVolume k (removeNode i name drv.fs.cred none) drv := by
  rw [nyfsUnlink, Eff.bind_ok h.run]
  rfl

/-! ## Finding a directory -/

/-- A call that has found the directory of its path. -/
structure InDirectory (k : Nat) (s : VfsState (NyfsState D)) (buffer path : List UInt8) (r : Nat)
    (s₁ : VfsState (NyfsState D)) (kids : Nat → List Nat) (ino : Nat → Nat) (ns : Nat)
    (localPath : List UInt8) (p : Nat) (name : Name) : Prop where
  space : Vfs.namespaceOf s buffer path = some (ns, localPath)
  space_run : Vfs.resolveNamespacePath buffer path false s = (.ok (ns, localPath), s)
  run : Vfs.resolveParentNs nyfsDrivers ns localPath s = (.ok (p, name), s₁)
  cached : Cached kids r p
  name_ne : name ≠ []
  disk : diskParent (s.drv.fs.volumes k) localPath = some (ino p, name)

theorem Stands.opsOf (h : Stands k s.drv n i) :
    Vfs.opsOf nyfsDrivers s (some n) = some (n, nyfsOps) := by
  obtain ⟨slot, hvnode, -⟩ := h
  rw [Vfs.opsOf, hvnode]
  rfl

/-- How the resolution of the directory of a local path ends. -/
theorem Coherent.parent_cases (h : Coherent k L r s kids ino nodes) {ns : Nat}
    (hns : (s.namespaces ns).inUse) (localPath : List UInt8) :
    ∃ s₁ kids₁ ino₁, Grown k L r nodes s kids ino s₁ kids₁ ino₁ ∧
      ((∃ e, Vfs.resolveParentNs nyfsDrivers ns localPath s = (.error e, s₁)) ∨
        ∃ p name, Vfs.resolveParentNs nyfsDrivers ns localPath s = (.ok (p, name), s₁) ∧
          (name = [] ∨ ((s₁.dentries p).node = none ∧ Vfs.IsRoot s₁ p) ∨ Cached kids₁ r p ∧
            diskParent (s.drv.fs.volumes k) localPath = some (ino₁ p, name))) := by
  have hpost := h.resolveParent_post hns localPath
  rw [Eff.Post] at hpost
  cases hparent : Vfs.resolveParentNs nyfsDrivers ns localPath s with
  | mk res s₁ =>
      rw [hparent] at hpost
      obtain ⟨kids₁, ino₁, hgrown, hok⟩ := hpost
      refine ⟨s₁, kids₁, ino₁, hgrown, ?_⟩
      cases res with
      | error e => exact Or.inl ⟨e, rfl⟩
      | ok place =>
          obtain ⟨p, name⟩ := place
          obtain ⟨hreached, hdisk⟩ := hok (p, name) rfl
          refine Or.inr ⟨p, name, rfl, ?_⟩
          by_cases hname : name = []
          · exact Or.inl hname
          rcases hreached with hcached | hbare
          · exact Or.inr (Or.inr ⟨hcached, (hdisk hname hcached).2⟩)
          · exact Or.inr (Or.inl hbare)

/-- How the resolution of the directory of a path ends. -/
theorem Coherent.directory_cases (h : Coherent k L r s kids ino nodes) (buffer path : List UInt8) :
    (∃ e, Vfs.resolveNamespacePath buffer path false s = (.error (.status e), s)) ∨
      ∃ ns localPath, Vfs.namespaceOf s buffer path = some (ns, localPath) ∧
        Vfs.resolveNamespacePath buffer path false s = (.ok (ns, localPath), s) ∧
        ∃ s₁ kids₁ ino₁, Grown k L r nodes s kids ino s₁ kids₁ ino₁ ∧
          ((∃ e, Vfs.resolveParentNs nyfsDrivers ns localPath s = (.error e, s₁)) ∨
            (∃ p name, Vfs.resolveParentNs nyfsDrivers ns localPath s = (.ok (p, name), s₁) ∧
              (name = [] ∨ (s₁.dentries p).node = none)) ∨
            ∃ p name, InDirectory k s buffer path r s₁ kids₁ ino₁ ns localPath p name) := by
  rcases Vfs.resolveNamespacePath_run buffer path s with ⟨e, hrun⟩ | ⟨ns, localPath, hns, hrun⟩
  · exact Or.inl ⟨e, hrun⟩
  refine Or.inr ⟨ns, localPath, hns, hrun, ?_⟩
  obtain ⟨s₁, kids₁, ino₁, hgrown, hcase⟩ := h.parent_cases (h.tree.namespaceOf_used hns) localPath
  refine ⟨s₁, kids₁, ino₁, hgrown, ?_⟩
  rcases hcase with herror | ⟨p, name, hparent, hcase⟩
  · exact Or.inl herror
  by_cases hname : name = []
  · exact Or.inr (Or.inl ⟨p, name, hparent, Or.inl hname⟩)
  rcases hcase.resolve_left hname with ⟨hbare, -⟩ | ⟨hcached, hdisk⟩
  · exact Or.inr (Or.inl ⟨p, name, hparent, Or.inr hbare⟩)
  · exact Or.inr (Or.inr ⟨p, name, hns, hrun, hparent, hcached, hname, hdisk⟩)

/-! ## Creating -/

/-- The driver's creation of a file or a directory. -/
def makeOp (isDir : Bool) (ops : Vfs.VfsOps (NyfsState D)) :
    Option (Nat → Name → Nat → KernelM D (Option Nat)) :=
  if isDir then ops.mkdir else ops.create

/-- What a creation in a directory comes to: the name is cached; the volume refuses; the name is on
the volume, but one of the three pools is exhausted; or the new inode is entered into the cache. -/
inductive MakeStep (k : Nat) (s : VfsState (NyfsState D)) (isDir : Bool) (mode i parent : Nat)
    (name : Name) : Except Stop Unit → VfsState (NyfsState D) → Prop
  | present (c : Nat) (hchild : cachedChild s.dentries parent name = some c) :
      MakeStep k s isDir mode i parent name (.error (.status .NalreadyExists)) s
  | refused (e : Stop) (v' : Volume D) (hnone : cachedChild s.dentries parent name = none)
      (hmake : makeNode isDir i name mode s.drv.fs.cred (s.drv.fs.volumes k) = (.error e, v')) :
      MakeStep k s isDir mode i parent name (.error e) { s with drv := withVolume s.drv k v' }
  | noVnode (t : Nat) (v' : Volume D) (drv : Drivers (NyfsState D))
      (hnone : cachedChild s.dentries parent name = none)
      (hmake : makeNode isDir i name mode s.drv.fs.cred (s.drv.fs.volumes k) = (.ok t, v'))
      (hno : NoVnode s.drv) (hfs : drv.fs = (withVolume s.drv k v').fs) (hkeeps : Keeps s.drv drv)
      (hsame : SameVnodes s.drv drv) :
      MakeStep k s isDir mode i parent name (.error (.status .NoutOfMemory)) { s with drv := drv }
  | noDentry (t : Nat) (v' : Volume D) (n slot : Nat)
      (hnone : cachedChild s.dentries parent name = none)
      (hmake : makeNode isDir i name mode s.drv.fs.cred (s.drv.fs.volumes k) = (.ok t, v'))
      (hn : freeVnodeSlot s.drv = some n) (hslot : freeDataSlot s.drv = some slot)
      (hno : freeDentrySlot s = none) :
      MakeStep k s isDir mode i parent name (.error (.status .NoutOfMemory)) { s with
        drv := (Vfs.vfsFreeVnode (some n) (withVnode (withVolume s.drv k v') n slot k t
          (if isDir then 2 else 1))).2 }
  | made (t : Nat) (v' : Volume D) (c n slot : Nat)
      (hnone : cachedChild s.dentries parent name = none)
      (hmake : makeNode isDir i name mode s.drv.fs.cred (s.drv.fs.volumes k) = (.ok t, v'))
      (hn : freeVnodeSlot s.drv = some n) (hslot : freeDataSlot s.drv = some slot)
      (hc : freeDentrySlot s = some c) :
      MakeStep k s isDir mode i parent name (.ok ()) { s with
        dentries := entered s.dentries parent c name n
        drv := withVnode (withVolume s.drv k v') n slot k t (if isDir then 2 else 1) }

/-- Creating in a directory that the cache shows. -/
theorem Coherent.makeEntry_in {s₀ : VfsState (NyfsState D)} {buffer path localPath : List UInt8}
    {ns : Nat} (h : Coherent k L r s kids ino nodes) (hpath : path ≠ [])
    (hin : InDirectory k s₀ buffer path r s kids ino ns localPath p name) (isDir : Bool) (mode : Nat) :
    MakeStep k s isDir mode (ino p) p name
      (Vfs.makeEntry nyfsDrivers (makeOp isDir) buffer path mode s₀).1
      (Vfs.makeEntry nyfsDrivers (makeOp isDir) buffer path mode s₀).2 := by
  obtain ⟨-, n, hnode, hstands⟩ := h.shows p hin.cached
  have hfind := h.tree.tree.findChild_run p name
  have hop : makeOp isDir (nyfsOps (D := D)) = some (nyfsMake isDir) := by
    cases isDir with
    | false => rfl
    | true => rfl
  rw [Vfs.makeEntry, if_neg hpath, Eff.bind_ok hin.space_run]
  dsimp only
  rw [Eff.bind_ok hin.run]
  dsimp only
  rw [if_neg hin.name_ne, Eff.gets_bind_run, hnode, hstands.opsOf]
  dsimp only
  rw [hop]
  dsimp only
  rw [Eff.bind_ok hfind, Eff.gets_bind_run]
  cases hchild : cachedChild s.dentries p name with
  | some c =>
      obtain ⟨-, m, hm, -⟩ := h.shows c (Or.inr ⟨p, h.tree.tree.cachedChild_mem hchild⟩)
      rw [if_pos (by rw [Option.any_some, hm]; rfl)]
      exact MakeStep.present c hchild
  | none =>
      rw [if_neg (by simp)]
      have hmakes := nyfsMake_eq hstands.vnodeOf isDir name mode
      cases hmake : makeNode isDir (ino p) name mode s.drv.fs.cred (s.drv.fs.volumes k) with
      | mk res v' =>
          rw [hmake] at hmakes
          cases res with
          | error e =>
              have hcall : Vfs.callDriver (nyfsMake isDir n name mode) s =
                  (.error e, { s with drv := Nyfs.withVolume s.drv k v' }) := by
                rw [Vfs.callDriver, hmakes]
              rw [Eff.bind_error hcall]
              exact MakeStep.refused e v' hchild hmake
          | ok t =>
              dsimp only at hmakes
              rcases makeVnode_cases (Nyfs.withVolume s.drv k v') k t (if isDir then 2 else 1) with
                ⟨m, slot, hm, hslot, hvnode⟩ | ⟨hno, vnodes, hvnode, hvnodes⟩
              · rw [hvnode] at hmakes
                have hcall : Vfs.callDriver (nyfsMake isDir n name mode) s = (.ok (some m), { s with
                    drv := withVnode (Nyfs.withVolume s.drv k v') m slot k t
                      (if isDir then 2 else 1) }) := by
                  rw [Vfs.callDriver, hmakes]
                rw [Eff.bind_ok hcall]
                dsimp only
                have halloc := Vfs.allocDentry_eq name (some m) (some p) { s with
                  drv := withVnode (Nyfs.withVolume s.drv k v') m slot k t
                    (if isDir then 2 else 1) }
                dsimp only at halloc
                cases hslots : freeDentrySlot s with
                | none =>
                    rw [freeDentrySlot] at hslots
                    rw [hslots] at halloc
                    rw [Eff.bind_ok halloc]
                    exact MakeStep.noDentry t v' m slot hchild hmake hm hslot hslots
                | some c =>
                    rw [freeDentrySlot] at hslots
                    rw [hslots] at halloc
                    rw [Eff.bind_ok halloc]
                    exact MakeStep.made t v' c m slot hchild hmake hm hslot hslots
              · rw [hvnode] at hmakes
                have hcall : Vfs.callDriver (nyfsMake isDir n name mode) s =
                    (.error (.status .NoutOfMemory), { s with
                      drv := { Nyfs.withVolume s.drv k v' with vnodes := vnodes } }) := by
                  rw [Vfs.callDriver, hmakes]
                rw [Eff.bind_error hcall]
                refine MakeStep.noVnode t v' _ hchild hmake hno rfl ⟨fun m hm => ?_, fun _ _ => rfl⟩
                  (fun m => ?_)
                · rcases hvnodes m with heq | ⟨hfree, -⟩
                  · exact heq
                  · have hused : ((Nyfs.withVolume s.drv k v').vnodes m).inUse = true := hm
                    rw [hfree] at hused
                    cases hused
                · rcases hvnodes m with heq | ⟨hfree, heq⟩
                  · exact congrArg Vfs.Vnode.inUse heq
                  · exact (congrArg Vfs.Vnode.inUse heq).trans hfree.symm

/-- A call has failed before its driver was called: at once, or behind the resolution of the directory
of its path. -/
def FailsEarly {α : Type} (s : VfsState (NyfsState D)) (buffer path : List UInt8)
    (res : Except Stop α) (s₁ : VfsState (NyfsState D)) : Prop :=
  (∃ e, res = .error e) ∧ (s₁ = s ∨ ∃ ns localPath found,
    Vfs.namespaceOf s buffer path = some (ns, localPath) ∧
      Vfs.resolveParentNs nyfsDrivers ns localPath s = (found, s₁))

/-- {lit}`vfs_create` and {lit}`vfs_mkdir`: an error before the driver is called, or a creation in
the directory of the path. -/
theorem Coherent.makeEntry_cases (h : Coherent k L r s kids ino nodes) (isDir : Bool)
    (buffer path : List UInt8) (mode : Nat) :
    ∃ s₁ kids₁ ino₁, Grown k L r nodes s kids ino s₁ kids₁ ino₁ ∧
      ((∃ res, Vfs.makeEntry nyfsDrivers (makeOp isDir) buffer path mode s = (res, s₁) ∧
          FailsEarly s buffer path res s₁) ∨
        ∃ ns localPath p name, path ≠ [] ∧
          InDirectory k s buffer path r s₁ kids₁ ino₁ ns localPath p name ∧
          MakeStep k s₁ isDir mode (ino₁ p) p name
            (Vfs.makeEntry nyfsDrivers (makeOp isDir) buffer path mode s).1
            (Vfs.makeEntry nyfsDrivers (makeOp isDir) buffer path mode s).2) := by
  by_cases hpath : path = []
  · refine ⟨s, kids, ino, Grown.refl h, Or.inl ⟨.error (.status .NinvalidArg), ?_, ⟨_, rfl⟩,
      Or.inl rfl⟩⟩
    rw [Vfs.makeEntry, if_pos hpath]
    rfl
  rcases h.directory_cases buffer path with ⟨e, hspace⟩ |
    ⟨ns, localPath, hns, hspace, s₁, kids₁, ino₁, hgrown, hcase⟩
  · refine ⟨s, kids, ino, Grown.refl h, Or.inl ⟨.error (.status e), ?_, ⟨_, rfl⟩, Or.inl rfl⟩⟩
    rw [Vfs.makeEntry, if_neg hpath, Eff.bind_error hspace]
  refine ⟨s₁, kids₁, ino₁, hgrown, ?_⟩
  rcases hcase with ⟨e, hparent⟩ | ⟨p, name, hparent, hbare⟩ | ⟨p, name, hin⟩
  · refine Or.inl ⟨.error e, ?_, ⟨e, rfl⟩, Or.inr ⟨ns, localPath, _, hns, hparent⟩⟩
    rw [Vfs.makeEntry, if_neg hpath, Eff.bind_ok hspace]
    dsimp only
    rw [Eff.bind_error hparent]
  · rw [Vfs.makeEntry, if_neg hpath, Eff.bind_ok hspace]
    dsimp only
    rw [Eff.bind_ok hparent]
    dsimp only
    by_cases hname : name = []
    · rw [if_pos hname]
      exact Or.inl ⟨_, rfl, ⟨_, rfl⟩, Or.inr ⟨ns, localPath, _, hns, hparent⟩⟩
    · rw [if_neg hname, Eff.gets_bind_run, hbare.resolve_left hname]
      exact Or.inl ⟨_, rfl, ⟨_, rfl⟩, Or.inr ⟨ns, localPath, _, hns, hparent⟩⟩
  · exact Or.inr ⟨ns, localPath, p, name, hpath, hin,
      hgrown.coherent.makeEntry_in hpath hin isDir mode⟩

/-- The cache shows the volume. -/
def Coheres (k : Nat) (L : Layout) (r : Nat) (s : VfsState (NyfsState D)) : Prop :=
  ∃ kids ino nodes, Coherent k L r s kids ino nodes

theorem Sound.makeNode_step (h : Sound L v nodes) (hi : Live L v.view i) (isDir : Bool) (name : Name)
    (mode : Nat) (hcred : cred.Fits) :
    ∃ nodes', Sound L (makeNode isDir i name mode cred v).2 nodes' ∧
      MakeOutcome L v.view nodes isDir i name mode cred (makeNode isDir i name mode cred v).2.view
        nodes' (makeNode isDir i name mode cred v).1 := by
  obtain ⟨res, V', nodes', hdoes, hinv, hout⟩ := h.inventory.makeNode (D := D) h.valid hi isDir name
    mode hcred
  obtain ⟨hres, hview, hsound⟩ := h.does hdoes hinv
  refine ⟨nodes', hsound, ?_⟩
  rw [hres, hview]
  exact hout

/-- The volume after a creation: the inodes of the cache live on, and no name of the cache has
changed. -/
theorem Coherent.makeNode (h : Coherent k L r s kids ino nodes) (hp : Cached kids r p)
    {isDir : Bool} {mode : Nat} {res : Except Stop Nat} {v' : Volume D}
    (hnone : cachedChild s.dentries p name = none)
    (hmake : makeNode isDir (ino p) name mode s.drv.fs.cred (s.drv.fs.volumes k) = (res, v')) :
    ∃ nodes', Coherent k L r { s with drv := Nyfs.withVolume s.drv k v' } kids ino nodes' ∧
      MakeOutcome L (s.drv.fs.volumes k).view nodes isDir (ino p) name mode s.drv.fs.cred v'.view
        nodes' res := by
  obtain ⟨nodes', hsound, hout⟩ := h.volume.makeNode_step (h.live hp) isDir name mode h.cred
  rw [hmake] at hsound hout
  refine ⟨nodes', h.withVolume hsound ?_ ?_, hout⟩
  · intro d hd
    cases hout with
    | made t hstarts hmade => exact (hmade.kept (ino d) (h.live hd)).keepsInodes
    | failed e leaked hsame => exact (hsame.kept (ino d) (h.live hd)).keepsInodes
  · intro q c hc
    have hq := h.live (h.entry q c hc).1
    cases hout with
    | failed e leaked hsame => rw [hsame.find (ino q) hq]
    | made t hstarts hmade =>
        by_cases hqp : ino q = ino p
        · -- the new name is not one of the names that the cache has for this directory
          obtain rfl := h.once q p (h.entry q c hc).1 hp hqp
          have hne : (s.dentries c).name ≠ name := by
            rintro heq
            have hcached := h.cachedChild_of_mem hc
            rw [heq, hnone] at hcached
            cases hcached
          rw [hmade.parent, Function.update_of_ne hne]
        · rw [hmade.others (ino q) hq hqp]

theorem MakeOutcome.vnodeType {V V' : View} {isDir : Bool} {mode : Nat}
    (h : MakeOutcome L V nodes isDir p name mode cred V' nodes' (.ok t)) :
    Nyfs.vnodeType (V'.inode t) = if isDir then 2 else 1 := by
  cases h with
  | made i hstarts hmade =>
      have htype : (V'.inode t).type = makeType isDir := congrArg Inode.type hmade.attributes
      rw [Nyfs.vnodeType, htype, makeType]
      cases isDir with
      | false => rfl
      | true => rfl

/-- A creation keeps the invariant. -/
theorem MakeStep.coheres {isDir : Bool} {mode : Nat} {res : Except Stop Unit}
    (h : Coherent k L r s kids ino nodes) (hp : Cached kids r p)
    (hstep : MakeStep k s isDir mode (ino p) p name res s') : Coheres k L r s' := by
  cases hstep with
  | present c hchild => exact ⟨kids, ino, nodes, h⟩
  | refused e v' hnone hmake =>
      obtain ⟨nodes', hcoherent, -⟩ := h.makeNode hp hnone hmake
      exact ⟨kids, ino, nodes', hcoherent⟩
  | noVnode t v' drv hnone hmake hno hfs hkeeps hsame =>
      obtain ⟨nodes', hcoherent, -⟩ := h.makeNode hp hnone hmake
      have hkeeps' : Keeps (withVolume s.drv k v') drv := ⟨hkeeps.vnodes, hkeeps.vnodeData⟩
      refine ⟨kids, ino, nodes', hcoherent.withDrv_same hkeeps' ?_ ?_⟩
      · rw [hfs]
      · rw [hfs]
        exact h.cred
  | noDentry t v' n slot hnone hmake hn hslot hno =>
      obtain ⟨nodes', hcoherent, -⟩ := h.makeNode hp hnone hmake
      have hn' : freeVnodeSlot (withVolume s.drv k v') = some n := hn
      exact ⟨kids, ino, nodes', hcoherent.withDrv_same (keeps_vfsFreeVnode hn' hslot k t _) rfl
        h.cred⟩
  | made t v' c n slot hnone hmake hn hslot hc =>
      obtain ⟨nodes', hcoherent, hout⟩ := h.makeNode hp hnone hmake
      have hn' : freeVnodeSlot (withVolume s.drv k v') = some n := hn
      have hkeeps := keeps_withVnode hn' hslot k t (if isDir then 2 else 1)
      have hdrv := hcoherent.withDrv_same hkeeps rfl h.cred
      obtain ⟨hlt, hfree⟩ := Vfs.firstFree_spec hc
      have hstands : Stands k (withVnode (withVolume s.drv k v') n slot k t
          (if isDir then 2 else 1)) n t := by
        rw [← hout.vnodeType]
        have hself := stands_withVnode (withVolume s.drv k v') n slot k t
        rwa [withVolume_self] at hself
      cases hout with
      | made i hstarts hmade =>
          have hfind : (nodes' (ino p)).find name = some (t, direntType (v'.view.inode t)) := by
            rw [hmade.parent, Function.update_self]
          exact ⟨_, _, nodes', (hdrv.enter hp hlt hfree hstarts.nameOk hnone hfind hstands).1⟩

/-- {lit}`vfs_create` and {lit}`vfs_mkdir` keep the invariant. -/
theorem Coherent.makeEntry (h : Coherent k L r s kids ino nodes) (isDir : Bool)
    (buffer path : List UInt8) (mode : Nat) :
    Coheres k L r (Vfs.makeEntry nyfsDrivers (makeOp isDir) buffer path mode s).2 := by
  obtain ⟨s₁, kids₁, ino₁, hgrown, hcase⟩ := h.makeEntry_cases isDir buffer path mode
  rcases hcase with ⟨res, hrun, -⟩ | ⟨ns, localPath, p, name, -, hin, hstep⟩
  · rw [hrun]
    exact ⟨kids₁, ino₁, nodes, hgrown.coherent⟩
  · exact hstep.coheres hgrown.coherent hin.cached

/-! ## Opening and listing -/

/-- A call that has found the dentry of its path. -/
structure AtPath (k : Nat) (s : VfsState (NyfsState D)) (buffer path : List UInt8) (r : Nat)
    (s₁ : VfsState (NyfsState D)) (kids : Nat → List Nat) (ino : Nat → Nat) (ns : Nat)
    (localPath : List UInt8) (d : Nat) : Prop where
  space : Vfs.namespaceOf s buffer path = some (ns, localPath)
  run : Vfs.resolvePathInternal nyfsDrivers buffer path s = (.ok d, s₁)
  cached : Cached kids r d
  disk : diskNode (s.drv.fs.volumes k) localPath = some (ino d)

/-- How the resolution of a path ends. -/
theorem Coherent.path_cases (h : Coherent k L r s kids ino nodes) (buffer path : List UInt8) :
    ∃ s₁ kids₁ ino₁, Grown k L r nodes s kids ino s₁ kids₁ ino₁ ∧
      ((∃ e, Vfs.resolvePathInternal nyfsDrivers buffer path s = (.error e, s₁)) ∨
        (∃ d, Vfs.resolvePathInternal nyfsDrivers buffer path s = (.ok d, s₁) ∧
          (s₁.dentries d).node = none) ∨
        ∃ ns localPath d, AtPath k s buffer path r s₁ kids₁ ino₁ ns localPath d) := by
  rcases Vfs.resolveNamespacePath_run buffer path s with ⟨e, hspace⟩ | ⟨ns, localPath, hns, hspace⟩
  · refine ⟨s, kids, ino, Grown.refl h, Or.inl ⟨.status e, ?_⟩⟩
    rw [Vfs.resolvePathInternal, Eff.bind_error hspace]
  have hrun : Vfs.resolvePathInternal nyfsDrivers buffer path s =
      Vfs.resolvePathInternalNs nyfsDrivers ns localPath s := by
    rw [Vfs.resolvePathInternal, Eff.bind_ok hspace]
  have hpost := h.resolvePath_post (h.tree.namespaceOf_used hns) localPath
  rw [Eff.Post, ← hrun] at hpost
  cases hres : Vfs.resolvePathInternal nyfsDrivers buffer path s with
  | mk res s₁ =>
      rw [hres] at hpost
      obtain ⟨kids₁, ino₁, hgrown, hok⟩ := hpost
      refine ⟨s₁, kids₁, ino₁, hgrown, ?_⟩
      cases res with
      | error e => exact Or.inl ⟨e, rfl⟩
      | ok d =>
          obtain ⟨hreached, hends⟩ := hok d rfl
          rcases hreached with hcached | ⟨hbare, -⟩
          · exact Or.inr (Or.inr ⟨ns, localPath, d, hns, hres, hcached, (hends hcached).2⟩)
          · exact Or.inr (Or.inl ⟨d, rfl, hbare⟩)

/-- {lit}`vfs_open` of a path that the cache shows. -/
theorem AtPath.vfsOpen_eq {s₁ : VfsState (NyfsState D)} {buffer path localPath : List UInt8} {ns : Nat}
    (hat : AtPath k s buffer path r s₁ kids ino ns localPath d) (hnode : (s₁.dentries d).node = some n)
    (hstands : Stands k s₁.drv n (ino d)) (flags : Nat) :
    Vfs.vfsOpen nyfsDrivers buffer path flags s =
      Vfs.callDriver (nyfsOpen n flags ⟨some n, 0, flags, none⟩) s₁ := by
  rw [Vfs.vfsOpen, Eff.bind_ok hat.run, Eff.gets_bind_run, hnode, hstands.opsOf]
  rfl

/-- The driver's handles are not a part of what the cache shows. -/
theorem Coherent.withHandleSlots (h : Coherent k L r s kids ino nodes) (slots : Nat → DataSlot) :
    Coherent k L r { s with drv := { s.drv with fs := { s.drv.fs with handleSlots := slots } } }
      kids ino nodes :=
  h.withDrv_same ⟨fun _ _ => rfl, fun _ _ => rfl⟩ rfl h.cred

/-- {lit}`vfs_open` keeps the invariant. -/
theorem Coherent.vfsOpen (h : Coherent k L r s kids ino nodes) (buffer path : List UInt8)
    (flags : Nat) : Coheres k L r (Vfs.vfsOpen nyfsDrivers buffer path flags s).2 := by
  obtain ⟨s₁, kids₁, ino₁, hgrown, hcase⟩ := h.path_cases buffer path
  have hsame : Coheres k L r s₁ := ⟨kids₁, ino₁, nodes, hgrown.coherent⟩
  rcases hcase with ⟨e, hrun⟩ | ⟨d, hrun, hbare⟩ | ⟨ns, localPath, d, hat⟩
  · rw [Vfs.vfsOpen, Eff.bind_error hrun]
    exact hsame
  · rw [Vfs.vfsOpen, Eff.bind_ok hrun, Eff.gets_bind_run, hbare]
    exact hsame
  · obtain ⟨-, n, hnode, hstands⟩ := hgrown.coherent.shows d hat.cached
    rw [hat.vfsOpen_eq hnode hstands flags, Vfs.callDriver,
      nyfsOpen_eq hstands.vnodeOf flags ⟨some n, 0, flags, none⟩]
    cases (openNode (ino₁ d) flags s₁.drv.fs.cred (s₁.drv.fs.volumes k)).1 with
    | error e => exact hsame
    | ok u =>
        dsimp only
        cases Vfs.firstFree (fun j => (s₁.drv.fs.handleSlots j).inUse) nyfsMaxHandles with
        | none => exact hsame
        | some slot => exact ⟨kids₁, ino₁, nodes, hgrown.coherent.withHandleSlots _⟩

/-- {lit}`vfs_readdir` keeps the invariant. -/
theorem Coherent.vfsReaddir (h : Coherent k L r s kids ino nodes) (buffer path : List UInt8)
    (index nameMax : Nat) :
    Coheres k L r (Vfs.vfsReaddir nyfsDrivers buffer path index nameMax s).2 := by
  rw [Vfs.vfsReaddir]
  by_cases hmax : nameMax = 0
  · rw [if_pos hmax]
    exact ⟨kids, ino, nodes, h⟩
  rw [if_neg hmax]
  obtain ⟨s₁, kids₁, ino₁, hgrown, hcase⟩ := h.path_cases buffer path
  have hsame : Coheres k L r s₁ := ⟨kids₁, ino₁, nodes, hgrown.coherent⟩
  rcases hcase with ⟨e, hrun⟩ | ⟨d, hrun, hbare⟩ | ⟨ns, localPath, d, hat⟩
  · rw [Eff.bind_error hrun]
    exact hsame
  · rw [Eff.bind_ok hrun, Eff.gets_bind_run, hbare]
    exact hsame
  · obtain ⟨-, n, hnode, hstands⟩ := hgrown.coherent.shows d hat.cached
    rw [Eff.bind_ok hat.run, Eff.gets_bind_run, hnode, hstands.opsOf]
    change Coheres k L r (Vfs.callDriver (nyfsReaddir n index nameMax) s₁).2
    rw [Vfs.callDriver, nyfsReaddir_state hstands.vnodeOf index nameMax]
    exact hsame

/-! ## Removing -/

theorem Sound.removeNode_step (h : Sound L v nodes) (hi : Live L v.view i) (name : Name) (cred : Cred)
    (expectDir : Option Bool) :
    ∃ nodes', Sound L (removeNode i name cred expectDir v).2 nodes' ∧
      RemoveOutcome L v.view nodes i name (removeNode i name cred expectDir v).2.view nodes'
        (removeNode i name cred expectDir v).1 := by
  obtain ⟨res, V', nodes', hdoes, hinv, hout⟩ := h.inventory.removeNode (D := D) h.valid hi name cred
    expectDir
  obtain ⟨hres, hview, hsound⟩ := h.does hdoes hinv
  refine ⟨nodes', hsound, ?_⟩
  rw [hres, hview]
  exact hout

/-- The volume after a removal of an inode that is not cached. -/
theorem Coherent.removeNode {v' : Volume D} {res : Except Stop Unit}
    (h : Coherent k L r s kids ino nodes) (hsound : Sound L v' nodes')
    (hout : RemoveOutcome L (s.drv.fs.volumes k).view nodes i name v'.view nodes' res)
    (hnot : res = .ok () → ∀ t type, (nodes i).find name = some (t, type) →
      ∀ d, Cached kids r d → ino d ≠ t) :
    Coherent k L r { s with drv := Nyfs.withVolume s.drv k v' } kids ino nodes' := by
  cases hout with
  | failed e hview hnodes =>
      refine h.withVolume hsound (fun d hd => ?_) (fun q c hc => by rw [hnodes])
      rw [KeepsInodes, hview]
      exact ⟨h.live hd, rfl⟩
  | removed t type hfind ht hbit hkept hparent hothers =>
      refine h.withVolume hsound (fun d hd => ?_) (fun q c hc => ?_)
      · exact (hkept (ino d) (h.live hd) (hnot rfl t type hfind d hd)).keepsInodes
      · by_cases hq : ino q = i
        · subst hq
          have hne : (s.dentries c).name ≠ name := by
            rintro heq
            obtain ⟨-, type', hfind'⟩ := h.entry q c hc
            rw [heq] at hfind'
            exact hnot rfl (ino c) type' hfind' c (Or.inr ⟨q, hc⟩) rfl
          rw [hparent, Function.update_of_ne hne]
        · rw [hothers (ino q) hq]

/-- A dentry that stands for an inode without records has no children. -/
theorem Coherent.kids_eq_nil (h : Coherent k L r s kids ino nodes)
    (hempty : (nodes (ino d)).records = []) : kids d = [] := by
  rw [List.eq_nil_iff_forall_not_mem]
  intro c hc
  obtain ⟨hd, type, hfind⟩ := h.entry d c hc
  exact (h.volume.inventory.target_of_find (h.live hd) hfind).2.2.2 hempty

/-- {lit}`vfs_unlink` in a directory that the cache shows. -/
theorem Coherent.unlink_in {s₀ : VfsState (NyfsState D)} {buffer path localPath : List UInt8} {ns : Nat}
    (h : Coherent k L r s kids ino nodes) (hpath : path ≠ [])
    (hin : InDirectory k s₀ buffer path r s kids ino ns localPath p name) :
    Coheres k L r (Vfs.vfsUnlink nyfsDrivers buffer path s₀).2 := by
  obtain ⟨-, n, hnode, hstands⟩ := h.shows p hin.cached
  rw [Vfs.vfsUnlink, if_neg hpath, Eff.bind_ok hin.space_run]
  dsimp only
  rw [Eff.bind_ok hin.run]
  dsimp only
  rw [if_neg hin.name_ne, Eff.gets_bind_run, hnode, hstands.opsOf]
  dsimp only [nyfsOps]
  obtain ⟨nodes', hsound, hout⟩ := h.volume.removeNode_step (h.live hin.cached) name s.drv.fs.cred none
  have hcall : Vfs.callDriver (nyfsUnlink n name) s =
      ((Nyfs.removeNode (ino p) name s.drv.fs.cred none (s.drv.fs.volumes k)).1, { s with
        drv := Nyfs.withVolume s.drv k
          (Nyfs.removeNode (ino p) name s.drv.fs.cred none (s.drv.fs.volumes k)).2 }) := by
    rw [Vfs.callDriver, nyfsUnlink_eq hstands.vnodeOf name, onVolume_eq]
  cases hremove : Nyfs.removeNode (ino p) name s.drv.fs.cred none (s.drv.fs.volumes k) with
  | mk res v' =>
      rw [hremove] at hcall hsound hout
      dsimp only at hcall hsound hout
      cases res with
      | error e =>
          rw [Eff.bind_error hcall]
          refine ⟨kids, ino, nodes', h.removeNode hsound hout (fun hcon => ?_)⟩
          cases hcon
      | ok u =>
          rw [Eff.bind_ok hcall]
          have hfind := (h.tree.withDrv (Nyfs.withVolume s.drv k v')).tree.findChild_run p name
          rw [Eff.bind_ok hfind]
          dsimp only
          cases hchild : cachedChild s.dentries p name with
          | none =>
              refine ⟨kids, ino, nodes', h.removeNode hsound hout ?_⟩
              rintro - t type hname d hd rfl
              obtain ⟨hmem, hlabel⟩ := h.cached_of_find hin.cached hname hd rfl
              have hcached := h.cachedChild_of_mem hmem
              rw [hlabel, hchild] at hcached
              cases hcached
          | some c =>
              have hmem := h.tree.tree.cachedChild_mem hchild
              have hlabel := h.tree.tree.cachedChild_name hchild
              obtain ⟨-, type', hentry⟩ := h.entry p c hmem
              rw [hlabel] at hentry
              have hnone : kids c = [] := by
                cases hout with
                | removed t type hname ht hbit hkept hparent hothers htables hfreed hempty =>
                    rw [hentry] at hname
                    obtain ⟨rfl, -⟩ := Prod.mk.inj (Option.some.inj hname)
                    exact h.kids_eq_nil hempty
              obtain ⟨ds, hrun, hds⟩ :=
                (h.tree.withDrv (Nyfs.withVolume s.drv k v')).tree.drop_run hmem
              change Coheres k L r (Vfs.dropDentry p c _).2
              rw [hrun]
              have hdrop := h.drop hmem hnone hds
              obtain ⟨-, m, hm, -⟩ := h.shows c (Or.inr ⟨p, hmem⟩)
              refine ⟨Vfs.dropped kids p c, ino, nodes', ?_⟩
              rw [hm] at hdrop ⊢
              refine hdrop.removeNode hsound hout ?_
              rintro - t type hname d hd rfl
              rw [hentry] at hname
              obtain ⟨hcached, hne⟩ := (h.cached_dropped hmem hnone).mp hd
              exact hne (h.once d c hcached (Or.inr ⟨p, hmem⟩)
                (congrArg Prod.fst (Option.some.inj hname)).symm)

/-- {lit}`vfs_unlink` keeps the invariant. -/
theorem Coherent.vfsUnlink (h : Coherent k L r s kids ino nodes) (buffer path : List UInt8) :
    Coheres k L r (Vfs.vfsUnlink nyfsDrivers buffer path s).2 := by
  by_cases hpath : path = []
  · rw [Vfs.vfsUnlink, if_pos hpath]
    exact ⟨kids, ino, nodes, h⟩
  rcases h.directory_cases buffer path with ⟨e, hspace⟩ |
    ⟨ns, localPath, -, hspace, s₁, kids₁, ino₁, hgrown, hcase⟩
  · rw [Vfs.vfsUnlink, if_neg hpath, Eff.bind_error hspace]
    exact ⟨kids, ino, nodes, h⟩
  have hsame : Coheres k L r s₁ := ⟨kids₁, ino₁, nodes, hgrown.coherent⟩
  rcases hcase with ⟨e, hparent⟩ | ⟨p, name, hparent, hbare⟩ | ⟨p, name, hin⟩
  · rw [Vfs.vfsUnlink, if_neg hpath, Eff.bind_ok hspace]
    dsimp only
    rw [Eff.bind_error hparent]
    exact hsame
  · rw [Vfs.vfsUnlink, if_neg hpath, Eff.bind_ok hspace]
    dsimp only
    rw [Eff.bind_ok hparent]
    dsimp only
    by_cases hname : name = []
    · rw [if_pos hname]
      exact hsame
    · rw [if_neg hname, Eff.gets_bind_run, hbare.resolve_left hname]
      exact hsame
  · exact hgrown.coherent.unlink_in hpath hin

end Nyfs
end Nyxis
