import Nyxis.Nyfs.HostPath
import Nyxis.Vfs.WellFormed

/-!
# The dentry cache over a volume

A volume is mounted at the root of a namespace.  Every dentry below that root stands, through its
vnode, for an inode of the volume, and its name is the name under which the directory above holds
that inode.  The resolvers keep this: what they enter into the cache is what the volume has
answered.

Main results:

- Definition {lit}`Coherent`: the cache shows the volume.
- Theorem {lit}`Coherent.childStep_cases`: one step of a resolution.
- Theorems {lit}`Coherent.resolveLoop_post` and {lit}`Coherent.parentLoop_post`: what the resolvers
  leave.
-/

namespace Nyxis
namespace Nyfs

open Vfs (VfsState Drivers Handle Name childStep cachedChild)

variable {D : Type} [ReliableDevice D] {L : Layout} {v v' : Volume D} {nodes nodes' : Nat → Node}
variable {cred : Cred} {i t : Nat} {name : Name}

/-! ## Lookups on the volume -/

theorem reads_lookupNode (dirIno : Nat) (name : Name) (cred : Cred) :
    Eff.Reads (lookupNode dirIno name cred : NyfsM D _) :=
  (reads_readDirInode dirIno).bind (fun _ => (reads_checkAccess _ _ _).bind (fun _ =>
    (reads_dirhashLookup _ _).bind (fun _ => (reads_readInode _).bind (fun _ =>
      Eff.reads_pure _))))

theorem reads_openNode (ino flags : Nat) (cred : Cred) :
    Eff.Reads (openNode ino flags cred : NyfsM D _) := by
  refine (reads_readInode ino).bind (fun _ => (reads_checkAccess _ _ _).bind (fun _ => ?_))
  refine Eff.reads_ite ?_ (Eff.reads_pure _)
  exact (Eff.reads_gets _).bind (fun _ => Eff.reads_ite (Eff.reads_pure _) (reads_failWith _))

theorem reads_readdirBucket (root index nameLimit fuel cur seen : Nat) :
    Eff.Reads (readdirBucket root index nameLimit fuel cur seen : NyfsM D _) := by
  induction fuel generalizing cur seen with
  | zero => exact Eff.reads_fail _
  | succ fuel ih =>
      refine Eff.reads_ite (Eff.reads_pure _) ((reads_readDirent root cur).bind (fun de => ?_))
      refine Eff.reads_ite ?_ (ih _ _)
      exact (reads_extentReadAt _ _ _).bind (fun _ => Eff.reads_pure _)

theorem reads_readdirBuckets (root index nameLimit count b seen : Nat) :
    Eff.Reads (readdirBuckets root index nameLimit count b seen : NyfsM D _) := by
  induction count generalizing b seen with
  | zero => exact reads_failWith _
  | succ count ih =>
      refine (reads_bucketHead root b).bind (fun head => ?_)
      refine (reads_readdirBucket root index nameLimit _ head seen).bind (fun found => ?_)
      cases found with
      | inl view => exact Eff.reads_pure _
      | inr seen' => exact ih _ _

theorem reads_readdirNode (dirIno : Nat) (cred : Cred) (index nameLimit : Nat) :
    Eff.Reads (readdirNode dirIno cred index nameLimit : NyfsM D _) := by
  refine (reads_readDirInode dirIno).bind (fun dir => (reads_checkAccess _ _ _).bind (fun _ => ?_))
  refine Eff.reads_ite (reads_failWith _) ((reads_dirhashHeader _).bind (fun hdr => ?_))
  exact reads_readdirBuckets _ _ _ _ _ _

/-- What a lookup answers: the directory may be searched and holds the name. -/
structure Answers (v : Volume D) (nodes : Nat → Node) (i : Nat) (name : Name) (cred : Cred) (t : Nat) :
    Prop where
  dir : (v.view.inode i).type = nyfsInoTypeDir
  grants : Grants v.view (v.view.inode i) cred nyfsAceExecute
  nameOk : NameOk name
  find : ∃ type, (nodes i).find name = some (t, type)

/-- When a lookup through the kernel succeeds. -/
theorem Sound.lookupNode_eq_ok (h : Sound L v nodes) (hi : Live L v.view i) {x : Inode} :
    (lookupNode i name cred v).1 = .ok (t, x) ↔
      Answers v nodes i name cred t ∧ x = v.view.inode t := by
  have hread := h.inventory.toOwned.does_readDirInode (D := D) h.valid hi
  by_cases htype : (v.view.inode i).type = nyfsInoTypeDir
  swap
  · rw [if_pos htype] at hread
    obtain ⟨w, hrun, -⟩ := (show Does L v.view (lookupNode i name cred : NyfsM D _) _ _ from
      hread.bind_error).run h.valid h.mounted rfl
    rw [hrun]
    exact ⟨nofun, fun hans => absurd hans.1.dir htype⟩
  rw [if_neg (not_not.mpr htype)] at hread
  have haccess := (h.inventory.holds i hi).does_checkAccess (D := D) h.valid cred nyfsAceExecute
  by_cases hgrants : Grants v.view (v.view.inode i) cred nyfsAceExecute
  swap
  · rw [if_neg hgrants] at haccess
    obtain ⟨w, hrun, -⟩ := (show Does L v.view (lookupNode i name cred : NyfsM D _) _ _ from
      hread.bind haccess.bind_error).run h.valid h.mounted rfl
    rw [hrun]
    exact ⟨nofun, fun hans => absurd hans.1.grants hgrants⟩
  rw [if_pos hgrants] at haccess
  have hlookup := (h.inventory.holds i hi).does_lookup (D := D) h.valid htype name
  rcases (nodes i).lookup_cases name with ⟨e, he, hno⟩ | ⟨⟨t', type⟩, hok, hname, hfind⟩
  · rw [he] at hlookup
    obtain ⟨w, hrun, -⟩ := (show Does L v.view (lookupNode i name cred : NyfsM D _) _ _ from
      hread.bind (haccess.bind hlookup.bind_error)).run h.valid h.mounted rfl
    rw [hrun]
    refine ⟨nofun, fun hans => absurd ⟨hans.1.nameOk, ?_⟩ hno⟩
    obtain ⟨type, hfind⟩ := hans.1.find
    rw [hfind]
    exact nofun
  · rw [hok] at hlookup
    have htarget := h.inventory.toOwned.does_readInode (D := D) h.valid
      (h.inventory.target_of_find hi hfind).1
    obtain ⟨w, hrun, -⟩ := (show Does L v.view (lookupNode i name cred : NyfsM D _) _ _ from
      hread.bind (haccess.bind (hlookup.bind (htarget.bind (Does.pure _))))).run h.valid h.mounted rfl
    rw [hrun]
    constructor
    · intro heq
      obtain ⟨rfl, rfl⟩ := Prod.mk.inj (Except.ok.inj heq)
      exact ⟨⟨htype, hgrants, hname, type, hfind⟩, rfl⟩
    · rintro ⟨hans, rfl⟩
      obtain ⟨type', hfind'⟩ := hans.find
      obtain ⟨rfl, -⟩ := Prod.mk.inj (Option.some.inj (hfind.symm.trans hfind'))
      rfl

/-- A directory that holds a name is a directory, and the name is one that the calls accept. -/
theorem Sound.held (h : Sound L v nodes) (hi : Live L v.view i) {type : Nat}
    (hfind : (nodes i).find name = some (t, type)) :
    (v.view.inode i).type = nyfsInoTypeDir ∧ NameOk name := by
  have hholds := h.inventory.holds i hi
  have hrecords := (h.inventory.target_of_find hi hfind).2.2.2
  rcases hholds.type with htype | htype
  · exact absurd (hholds.file htype).2.2 hrecords
  · obtain ⟨rec, hrec, -⟩ := Option.map_eq_some_iff.mp hfind
    have hvalid := (hholds.dir htype).1.table.valid rec (List.mem_of_find?_eq_some hrec)
    have hname : rec.name = name := by simpa using List.find?_some hrec
    rw [← hname]
    exact ⟨htype, hvalid.name_pos, hvalid.name_le⟩

/-- The superuser finds every name that a directory holds. -/
theorem Sound.lookupNode_root (h : Sound L v nodes) (hi : Live L v.view i) {type : Nat}
    (hfind : (nodes i).find name = some (t, type)) :
    (lookupNode i name ⟨0, 0⟩ v).1 = .ok (t, v.view.inode t) := by
  obtain ⟨hdir, hname⟩ := h.held hi hfind
  exact (h.lookupNode_eq_ok hi).mpr ⟨⟨hdir, Or.inl rfl, hname, type, hfind⟩, rfl⟩

/-- The inode that a cursor leads to on the volume, component by component and without a cache. -/
def diskLoop (v : Volume D) : (fuel : Nat) → (i : Nat) → List UInt8 → Option Nat
  | 0, i, _ => some i
  | fuel + 1, i, cursor =>
      if cursor = [] then some i
      else
        match Vfs.parseSegment cursor with
        | .error _ => none
        | .ok (name, rest) =>
            if name = [] then some i
            else
              match (lookupNode i name ⟨0, 0⟩ v).1 with
              | .error _ => none
              | .ok (t, _) => diskLoop v fuel t rest

/-- The directory and the last component that a cursor leads to on the volume. -/
def diskParentLoop (v : Volume D) : (fuel : Nat) → (i : Nat) → List UInt8 → Option (Nat × Name)
  | 0, _, _ => none
  | fuel + 1, i, cursor =>
      if cursor = [] then none
      else
        match Vfs.parseSegment cursor with
        | .error _ => none
        | .ok (name, rest) =>
            if name = [] then none
            else if Vfs.skipSlashes rest = [] then some (i, name)
            else
              match (lookupNode i name ⟨0, 0⟩ v).1 with
              | .error _ => none
              | .ok (t, _) => diskParentLoop v fuel t (Vfs.skipSlashes rest)

/-! ## The invariant -/

variable {k r : Nat} {s s' : VfsState (NyfsState D)} {drv drv' : Drivers (NyfsState D)}
variable {kids kids' : Nat → List Nat} {ino ino' : Nat → Nat} {n d c cur : Nat}

/-- The root of the mount or a child: a dentry that the cache leads to. -/
def Cached (kids : Nat → List Nat) (r d : Nat) : Prop :=
  d = r ∨ ∃ p, d ∈ kids p

/-- A vnode and its data stand for an inode of a volume. -/
def Stands (k : Nat) (drv : Drivers (NyfsState D)) (n i : Nat) : Prop :=
  ∃ slot, drv.vnodes n = ⟨i, vnodeType ((drv.fs.volumes k).view.inode i), some nyfsDriver, some slot,
      true⟩ ∧ drv.fs.vnodeData slot = ⟨true, ⟨some k, i⟩⟩

/-- A dentry stands, through its vnode, for a live inode. -/
def Presents (k : Nat) (L : Layout) (s : VfsState (NyfsState D)) (d i : Nat) : Prop :=
  Live L (s.drv.fs.volumes k).view i ∧ ∃ n, (s.dentries d).node = some n ∧ Stands k s.drv n i

/-- The cache shows the volume that is mounted at a root: each dentry stands for its own inode, and
a child is held by the directory of its parent under its name.  Nothing is mounted at the other
roots. -/
structure Coherent (k : Nat) (L : Layout) (r : Nat) (s : VfsState (NyfsState D))
    (kids : Nat → List Nat) (ino : Nat → Nat) (nodes : Nat → Node) : Prop where
  tree : Vfs.Sound s kids
  volume : Sound L (s.drv.fs.volumes k) nodes
  cred : s.drv.fs.cred.Fits
  root : Vfs.IsRoot s r
  roots : ∀ d, Vfs.IsRoot s d → d = r ∨ (s.dentries d).node = none
  top : ino r = nyfsRootIno
  shows : ∀ d, Cached kids r d → Presents k L s d (ino d)
  entry : ∀ p c, c ∈ kids p → Cached kids r p ∧
    ∃ type, (nodes (ino p)).find (s.dentries c).name = some (ino c, type)
  once : ∀ c d, Cached kids r c → Cached kids r d → ino c = ino d → c = d

/-- The same vnodes are in use. -/
def SameVnodes (drv drv' : Drivers (NyfsState D)) : Prop :=
  ∀ n, (drv'.vnodes n).inUse = (drv.vnodes n).inUse

/-- The vnodes in use and their data are as before. -/
structure Keeps (drv drv' : Drivers (NyfsState D)) : Prop where
  vnodes : ∀ n, (drv.vnodes n).inUse = true → drv'.vnodes n = drv.vnodes n
  vnodeData : ∀ i, (drv.fs.vnodeData i).inUse = true → drv'.fs.vnodeData i = drv.fs.vnodeData i

theorem Stands.used (h : Stands k drv n i) : (drv.vnodes n).inUse = true := by
  obtain ⟨slot, hvnode, -⟩ := h
  rw [hvnode]

theorem Stands.vnodeOf (h : Stands k drv n i) : VnodeOf drv n k i := by
  obtain ⟨slot, hvnode, hdata⟩ := h
  refine ⟨slot, ?_, ?_⟩
  · rw [hvnode]
  · rw [hdata]

/-- A vnode stands for one inode. -/
theorem Stands.unique {j : Nat} (h : Stands k drv n i) (h' : Stands k drv n j) : i = j := by
  obtain ⟨slot, hvnode, -⟩ := h
  obtain ⟨slot', hvnode', -⟩ := h'
  exact congrArg Vfs.Vnode.inodeId (hvnode.symm.trans hvnode')

theorem Stands.keeps (h : Stands k drv n i) (hkeeps : Keeps drv drv')
    (htype : ((drv'.fs.volumes k).view.inode i).type = ((drv.fs.volumes k).view.inode i).type) :
    Stands k drv' n i := by
  have hused := h.used
  obtain ⟨slot, hvnode, hdata⟩ := h
  refine ⟨slot, ?_, ?_⟩
  · rw [hkeeps.vnodes n hused, hvnode, vnodeType, vnodeType, htype]
  · rw [hkeeps.vnodeData slot (by rw [hdata]), hdata]

theorem Coherent.live (h : Coherent k L r s kids ino nodes) (hd : Cached kids r d) :
    Live L (s.drv.fs.volumes k).view (ino d) :=
  (h.shows d hd).1

theorem Coherent.used (h : Coherent k L r s kids ino nodes) (hd : Cached kids r d) :
    (s.dentries d).inUse = true := by
  rcases hd with rfl | ⟨p, hp⟩
  · exact h.tree.root_used d h.root
  · exact (h.tree.tree.used p d hp).2

/-- The root of the mount is no child: no directory holds the root inode. -/
theorem Coherent.root_not_kid (h : Coherent k L r s kids ino nodes) (p : Nat) : r ∉ kids p := by
  intro hr
  obtain ⟨hp, type, hfind⟩ := h.entry p r hr
  have hne := (h.volume.inventory.target_of_find (h.live hp) hfind).2.1
  rw [h.top] at hne
  exact hne rfl

/-- No root is a child. -/
theorem Coherent.isRoot_not_kid (h : Coherent k L r s kids ino nodes) (hd : Vfs.IsRoot s d)
    (p : Nat) : d ∉ kids p := by
  intro hmem
  rcases h.roots d hd with rfl | hnone
  · exact h.root_not_kid p hmem
  · obtain ⟨-, n, hnode, -⟩ := h.shows d (Or.inr ⟨p, hmem⟩)
    rw [hnone] at hnode
    cases hnode

/-- Two dentries have two vnodes. -/
theorem Coherent.node_inj (h : Coherent k L r s kids ino nodes) (hc : Cached kids r c)
    (hd : Cached kids r d) (hnode : (s.dentries c).node = (s.dentries d).node) : c = d := by
  obtain ⟨-, n, hn, hstands⟩ := h.shows c hc
  obtain ⟨-, m, hm, hstands'⟩ := h.shows d hd
  obtain rfl : n = m := Option.some.inj (hn.symm.trans (hnode.trans hm))
  exact h.once c d hc hd (hstands.unique hstands')

/-- The child of a dentry under a name is the only one. -/
theorem Coherent.kid_unique (h : Coherent k L r s kids ino nodes) {p : Nat} (hc : c ∈ kids p)
    (hd : d ∈ kids p) (hname : (s.dentries c).name = (s.dentries d).name) : c = d := by
  obtain ⟨-, type, hfind⟩ := h.entry p c hc
  obtain ⟨-, type', hfind'⟩ := h.entry p d hd
  rw [hname, hfind'] at hfind
  exact h.once c d (Or.inr ⟨p, hc⟩) (Or.inr ⟨p, hd⟩)
    (congrArg Prod.fst (Option.some.inj hfind)).symm

theorem Coherent.cachedChild_of_mem (h : Coherent k L r s kids ino nodes) {p : Nat}
    (hc : c ∈ kids p) : cachedChild s.dentries p (s.dentries c).name = some c := by
  cases hchild : cachedChild s.dentries p (s.dentries c).name with
  | some d =>
      have hname := h.tree.tree.cachedChild_name hchild
      rw [h.kid_unique (h.tree.tree.cachedChild_mem hchild) hc hname]
  | none =>
      rw [h.tree.tree.cachedChild_eq, List.find?_eq_none] at hchild
      exact absurd (decide_eq_true rfl) (hchild c hc)

/-- An inode has one name. -/
theorem Inventory.find_once {V : View} {i j type type' : Nat} {name' : Name} (h : Inventory L V nodes)
    (hi : Live L V i) (hj : Live L V j) (hfind : (nodes i).find name = some (t, type))
    (hfind' : (nodes j).find name' = some (t, type')) : i = j ∧ name = name' := by
  obtain ⟨rec, hrec, hpair⟩ := Option.map_eq_some_iff.mp hfind
  obtain ⟨rec', hrec', hpair'⟩ := Option.map_eq_some_iff.mp hfind'
  obtain ⟨hino, rfl⟩ := h.once i j hi hj rec (List.mem_of_find?_eq_some hrec) rec'
    (List.mem_of_find?_eq_some hrec') ((Prod.mk.inj hpair).1.trans (Prod.mk.inj hpair').1.symm)
  have hname := List.find?_some hrec
  have hname' := List.find?_some hrec'
  simp only [decide_eq_true_eq] at hname hname'
  exact ⟨hino, hname.symm.trans hname'⟩

/-- What the volume holds under a name is cached at that place or nowhere. -/
theorem Coherent.cached_of_find (h : Coherent k L r s kids ino nodes) (hcur : Cached kids r cur)
    {type : Nat} (hfind : (nodes (ino cur)).find name = some (t, type)) (hd : Cached kids r d)
    (ht : ino d = t) : d ∈ kids cur ∧ (s.dentries d).name = name := by
  subst ht
  obtain ⟨htarget, hroot, -⟩ := h.volume.inventory.target_of_find (h.live hcur) hfind
  rcases hd with rfl | ⟨p, hp⟩
  · exact absurd h.top hroot
  obtain ⟨hpc, type', hfind'⟩ := h.entry p d hp
  obtain ⟨hino, hname⟩ := h.volume.inventory.find_once (h.live hcur) (h.live hpc) hfind hfind'
  obtain rfl := h.once cur p hcur hpc hino
  exact ⟨hp, hname.symm⟩

/-! ## Changes of the invariant -/

/-- The driver has changed the volume, but no inode and no record that the cache shows. -/
theorem Coherent.withDrv (h : Coherent k L r s kids ino nodes) (hkeeps : Keeps s.drv drv)
    (hvolume : Sound L (drv.fs.volumes k) nodes') (hcred : drv.fs.cred.Fits)
    (hlive : ∀ d, Cached kids r d → Live L (drv.fs.volumes k).view (ino d) ∧
      ((drv.fs.volumes k).view.inode (ino d)).type =
        ((s.drv.fs.volumes k).view.inode (ino d)).type)
    (hfind : ∀ p c type, c ∈ kids p →
      (nodes (ino p)).find (s.dentries c).name = some (ino c, type) →
      ∃ type', (nodes' (ino p)).find (s.dentries c).name = some (ino c, type')) :
    Coherent k L r { s with drv := drv } kids ino nodes' where
  tree := h.tree.withDrv drv
  volume := hvolume
  cred := hcred
  root := h.root
  roots := h.roots
  top := h.top
  shows := by
    intro d hd
    obtain ⟨-, n, hnode, hstands⟩ := h.shows d hd
    exact ⟨(hlive d hd).1, n, hnode, hstands.keeps hkeeps (hlive d hd).2⟩
  entry := by
    intro p c hc
    obtain ⟨hp, type, htype⟩ := h.entry p c hc
    exact ⟨hp, hfind p c type hc htype⟩
  once := h.once

/-- The driver has left the volume as it is. -/
theorem Coherent.withDrv_same (h : Coherent k L r s kids ino nodes) (hkeeps : Keeps s.drv drv)
    (hvolume : drv.fs.volumes k = s.drv.fs.volumes k) (hcred : drv.fs.cred.Fits) :
    Coherent k L r { s with drv := drv } kids ino nodes := by
  refine h.withDrv hkeeps ?_ hcred (fun d hd => ?_) (fun p c type _ hfind => ⟨type, hfind⟩)
  · rw [hvolume]
    exact h.volume
  · rw [hvolume]
    exact ⟨h.live hd, rfl⟩

/-- The table of dentries with a new child in it. -/
def entered (ds : Nat → Vfs.Dentry) (cur c : Nat) (name : Name) (n : Nat) : Nat → Vfs.Dentry :=
  Vfs.attached (Function.update ds c (Vfs.freshDentry name (some n) (some cur))) cur c

theorem NameOk.take_eq (h : NameOk name) : name.take Vfs.vfsNameMax = name :=
  List.take_of_length_le h.le

theorem cached_cons : Cached (Function.update kids cur (c :: kids cur)) r d ↔
    d = c ∨ Cached kids r d := by
  constructor
  · rintro (rfl | ⟨p, hp⟩)
    · exact Or.inr (Or.inl rfl)
    · by_cases hpc : p = cur
      · subst hpc
        rw [Function.update_self, List.mem_cons] at hp
        exact hp.imp_right (fun hmem => Or.inr ⟨p, hmem⟩)
      · rw [Function.update_of_ne hpc] at hp
        exact Or.inr (Or.inr ⟨p, hp⟩)
  · rintro (rfl | rfl | ⟨p, hp⟩)
    · exact Or.inr ⟨cur, by rw [Function.update_self]; exact List.mem_cons_self⟩
    · exact Or.inl rfl
    · refine Or.inr ⟨p, ?_⟩
      by_cases hpc : p = cur
      · subst hpc
        rw [Function.update_self]
        exact List.mem_cons_of_mem _ hp
      · rwa [Function.update_of_ne hpc]

/-- A name that the volume holds and the cache does not is entered with a new vnode. -/
theorem Coherent.enter (h : Coherent k L r s kids ino nodes) (hcur : Cached kids r cur)
    (hc : c < Vfs.vfsMaxDentries) (hfree : (s.dentries c).inUse = false) (hname : NameOk name)
    (hnew : cachedChild s.dentries cur name = none) {type : Nat}
    (hfind : (nodes (ino cur)).find name = some (t, type)) (hstands : Stands k s.drv n t) :
    Coherent k L r { s with dentries := entered s.dentries cur c name n }
        (Function.update kids cur (c :: kids cur)) (Function.update ino c t) nodes ∧
      Vfs.Grows s kids { s with dentries := entered s.dentries cur c name n }
        (Function.update kids cur (c :: kids cur)) ∧
      Function.update kids cur (c :: kids cur) c = [] := by
  obtain ⟨htree, hgrows, hempty⟩ := h.tree.enter hc hfree (h.used hcur) name (some n)
  have hne : ∀ d, Cached kids r d → d ≠ c := by
    rintro d hd rfl
    rw [h.used hd] at hfree
    cases hfree
  have hino : ∀ d, Cached kids r d → Function.update ino c t d = ino d :=
    fun d hd => Function.update_of_ne (hne d hd) _ _
  have hnode : (entered s.dentries cur c name n c).node = some n := by
    rw [entered, Vfs.attached_node, Function.update_self]
    rfl
  have hlabel : (entered s.dentries cur c name n c).name = name := by
    rw [entered, Vfs.attached_name, Function.update_self]
    exact hname.take_eq
  have hold : ∀ d, d ≠ c → (entered s.dentries cur c name n d).node = (s.dentries d).node ∧
      (entered s.dentries cur c name n d).name = (s.dentries d).name := by
    intro d hd
    rw [entered, Vfs.attached_node, Vfs.attached_name, Function.update_of_ne hd]
    exact ⟨rfl, rfl⟩
  have hrootc : ∀ d, Vfs.IsRoot s d → d ≠ c := by
    rintro d hd rfl
    rw [h.tree.root_used d hd] at hfree
    cases hfree
  -- the volume holds the new inode at the new place only
  have hfresh : ∀ d, Cached kids r d → ino d ≠ t := by
    intro d hd ht
    obtain ⟨hmem, hdname⟩ := h.cached_of_find hcur hfind hd ht
    have hcached := h.cachedChild_of_mem hmem
    rw [hdname, hnew] at hcached
    cases hcached
  refine ⟨⟨htree, h.volume, h.cred, hgrows.isRoot.mpr h.root, ?_, ?_, ?_, ?_, ?_⟩, hgrows, hempty⟩
  · intro d hd
    rcases h.roots d hd with rfl | hnone
    · exact Or.inl rfl
    · exact Or.inr ((hold d (hrootc d hd)).1.trans hnone)
  · rw [hino r (Or.inl rfl)]
    exact h.top
  · intro d hd
    rcases cached_cons.mp hd with rfl | hd
    · rw [Function.update_self]
      exact ⟨(h.volume.inventory.target_of_find (h.live hcur) hfind).1, n, hnode, hstands⟩
    · obtain ⟨hlive, m, hm, hm'⟩ := h.shows d hd
      rw [hino d hd]
      exact ⟨hlive, m, (hold d (hne d hd)).1.trans hm, hm'⟩
  · intro p d hd
    have hcase : (p = cur ∧ d = c) ∨ d ∈ kids p := by
      by_cases hp : p = cur
      · subst hp
        rw [Function.update_self, List.mem_cons] at hd
        exact hd.imp_left (fun heq => ⟨rfl, heq⟩)
      · rw [Function.update_of_ne hp] at hd
        exact Or.inr hd
    rcases hcase with ⟨rfl, rfl⟩ | hmem
    · refine ⟨cached_cons.mpr (Or.inr hcur), type, ?_⟩
      rw [hino p hcur, Function.update_self, hlabel]
      exact hfind
    · obtain ⟨hp, type', hfind'⟩ := h.entry p d hmem
      have hd' : Cached kids r d := Or.inr ⟨p, hmem⟩
      refine ⟨cached_cons.mpr (Or.inr hp), type', ?_⟩
      rw [hino p hp, hino d hd', (hold d (hne d hd')).2]
      exact hfind'
  · intro x y hx hy heq
    rcases cached_cons.mp hx with hxc | hx'
    · rcases cached_cons.mp hy with hyc | hy'
      · rw [hxc, hyc]
      · rw [hxc, Function.update_self, hino y hy'] at heq
        exact absurd heq.symm (hfresh y hy')
    · rcases cached_cons.mp hy with hyc | hy'
      · rw [hyc, Function.update_self, hino x hx'] at heq
        exact absurd heq (hfresh x hx')
      · rw [hino x hx', hino y hy'] at heq
        exact h.once x y hx' hy' heq

/-! ## One step of a resolution -/

/-- NyFS is the only driver. -/
def nyfsDrivers : Nat → Vfs.VfsOps (NyfsState D) :=
  fun _ => nyfsOps

omit [ReliableDevice D] in
theorem onVolume_reads {α : Type} {m : NyfsM D α} (hm : Eff.Reads m) (k : Nat)
    (drv : Drivers (NyfsState D)) : onVolume k m drv = ((m (drv.fs.volumes k)).1, drv) := by
  rw [onVolume, hm (drv.fs.volumes k), Function.update_eq_self]

/-- {lit}`nyfs_lookup` looks the name up on the volume and makes a vnode. -/
theorem nyfsLookup_eq (h : VnodeOf drv n k i) (name : Name) :
    nyfsLookup n name drv =
      match (lookupNode i name drv.fs.cred (drv.fs.volumes k)).1 with
      | .error e => (.error e, drv)
      | .ok found => makeVnode k found.1 (vnodeType found.2) drv := by
  have hon := onVolume_reads (reads_lookupNode i name drv.fs.cred) k drv
  rw [nyfsLookup, Eff.bind_ok h.run]
  dsimp only
  rw [Eff.gets_bind_run]
  cases hfound : (lookupNode i name drv.fs.cred (drv.fs.volumes k)).1 with
  | error e =>
      rw [hfound] at hon
      exact Eff.bind_error hon
  | ok found =>
      rw [hfound] at hon
      exact Eff.bind_ok hon

/-- The first free dentry. -/
def freeDentrySlot (s : VfsState (NyfsState D)) : Option Nat :=
  Vfs.firstFree (fun i => (s.dentries i).inUse) Vfs.vfsMaxDentries

/-- The first free vnode. -/
def freeVnodeSlot (drv : Drivers (NyfsState D)) : Option Nat :=
  Vfs.firstFree (fun i => (drv.vnodes i).inUse) Vfs.vfsMaxVnodes

/-- The first free entry for the data of a vnode. -/
def freeDataSlot (drv : Drivers (NyfsState D)) : Option Nat :=
  Vfs.firstFree (fun i => (drv.fs.vnodeData i).inUse) nyfsMaxVnodeData

/-- What one step of a resolution comes to: the child is cached; the volume refuses the lookup; one
of the three pools is exhausted; or the child is entered into the cache. -/
inductive ChildStep (k : Nat) (s : VfsState (NyfsState D)) (i cur : Nat) (name : Name) :
    Except Stop Nat → VfsState (NyfsState D) → Prop
  | cached (c : Nat) (hchild : cachedChild s.dentries cur name = some c) :
      ChildStep k s i cur name (.ok c) s
  | refused (e : Stop) (hnone : cachedChild s.dentries cur name = none)
      (hlookup : (lookupNode i name s.drv.fs.cred (s.drv.fs.volumes k)).1 = .error e) :
      ChildStep k s i cur name (.error e) s
  | noVnode (t : Nat) (x : Inode) (drv : Drivers (NyfsState D))
      (hnone : cachedChild s.dentries cur name = none)
      (hlookup : (lookupNode i name s.drv.fs.cred (s.drv.fs.volumes k)).1 = .ok (t, x))
      (hno : NoVnode s.drv) (hfs : drv.fs = s.drv.fs) (hkeeps : Keeps s.drv drv)
      (hsame : SameVnodes s.drv drv) :
      ChildStep k s i cur name (.error (.status .NoutOfMemory)) { s with drv := drv }
  | noDentry (t : Nat) (x : Inode) (n slot : Nat) (hnone : cachedChild s.dentries cur name = none)
      (hlookup : (lookupNode i name s.drv.fs.cred (s.drv.fs.volumes k)).1 = .ok (t, x))
      (hn : freeVnodeSlot s.drv = some n) (hslot : freeDataSlot s.drv = some slot)
      (hno : freeDentrySlot s = none) :
      ChildStep k s i cur name (.error (.status .NoutOfMemory)) { s with
        drv := (Vfs.vfsFreeVnode (some n) (withVnode s.drv n slot k t (vnodeType x))).2 }
  | fresh (t : Nat) (x : Inode) (c n slot : Nat) (hnone : cachedChild s.dentries cur name = none)
      (hlookup : (lookupNode i name s.drv.fs.cred (s.drv.fs.volumes k)).1 = .ok (t, x))
      (hn : freeVnodeSlot s.drv = some n) (hslot : freeDataSlot s.drv = some slot)
      (hc : freeDentrySlot s = some c) :
      ChildStep k s i cur name (.ok c) { s with
        dentries := entered s.dentries cur c name n
        drv := withVnode s.drv n slot k t (vnodeType x) }

/-- One step from a dentry that the cache shows. -/
theorem Coherent.childStep_cases (h : Coherent k L r s kids ino nodes) (hcur : Cached kids r cur)
    (missing : Nstatus) (name : Name) :
    ChildStep k s (ino cur) cur name (childStep nyfsDrivers missing cur name s).1
      (childStep nyfsDrivers missing cur name s).2 := by
  obtain ⟨-, n, hnode, hstands⟩ := h.shows cur hcur
  have hfind := h.tree.tree.findChild_run cur name
  cases hchild : cachedChild s.dentries cur name with
  | some c =>
      rw [hchild] at hfind
      have hrun : childStep nyfsDrivers missing cur name s = (.ok c, s) := by
        rw [childStep, Eff.bind_ok hfind]
        rfl
      rw [hrun]
      exact ChildStep.cached c hchild
  | none =>
      rw [hchild] at hfind
      have hops : Vfs.opsOf nyfsDrivers s (s.dentries cur).node = some (n, nyfsOps) := by
        obtain ⟨slot, hvnode, -⟩ := hstands
        rw [hnode, Vfs.opsOf, hvnode]
        rfl
      have hlookup := nyfsLookup_eq hstands.vnodeOf name
      rw [childStep, Eff.bind_ok hfind]
      dsimp only
      rw [Eff.gets_bind_run, hops]
      dsimp only [nyfsOps]
      cases hfound : (lookupNode (ino cur) name s.drv.fs.cred (s.drv.fs.volumes k)).1 with
      | error e =>
          rw [hfound] at hlookup
          have hcall : Vfs.callDriver (nyfsLookup n name) s = (.error e, s) := by
            rw [Vfs.callDriver, hlookup]
          rw [Eff.bind_error hcall]
          exact ChildStep.refused e hchild hfound
      | ok found =>
          obtain ⟨t, x⟩ := found
          rw [hfound] at hlookup
          dsimp only at hlookup
          rcases makeVnode_cases s.drv k t (vnodeType x) with ⟨m, slot, hm, hslot, hmake⟩ |
            ⟨hno, vnodes, hmake, hvnodes⟩
          · rw [hmake] at hlookup
            have hcall : Vfs.callDriver (nyfsLookup n name) s =
                (.ok (some m), { s with drv := withVnode s.drv m slot k t (vnodeType x) }) := by
              rw [Vfs.callDriver, hlookup]
            rw [Eff.bind_ok hcall]
            dsimp only
            have halloc := Vfs.allocDentry_eq name (some m) (some cur)
              { s with drv := withVnode s.drv m slot k t (vnodeType x) }
            cases hslots : freeDentrySlot s with
            | none =>
                rw [freeDentrySlot] at hslots
                dsimp only at halloc
                rw [hslots] at halloc
                rw [Eff.bind_ok halloc]
                exact ChildStep.noDentry t x m slot hchild hfound hm hslot hslots
            | some c =>
                rw [freeDentrySlot] at hslots
                dsimp only at halloc
                rw [hslots] at halloc
                rw [Eff.bind_ok halloc]
                exact ChildStep.fresh t x c m slot hchild hfound hm hslot hslots
          · rw [hmake] at hlookup
            have hcall : Vfs.callDriver (nyfsLookup n name) s = (.error (.status .NoutOfMemory),
                { s with drv := { s.drv with vnodes := vnodes } }) := by
              rw [Vfs.callDriver, hlookup]
            rw [Eff.bind_error hcall]
            refine ChildStep.noVnode t x _ hchild hfound hno rfl ⟨fun m hm => ?_, fun _ _ => rfl⟩
              (fun m => ?_)
            · rcases hvnodes m with heq | ⟨hfree, -⟩
              · exact heq
              · rw [hfree] at hm
                cases hm
            · rcases hvnodes m with heq | ⟨hfree, heq⟩
              · exact congrArg Vfs.Vnode.inUse heq
              · rw [hfree]
                exact congrArg Vfs.Vnode.inUse heq

omit [ReliableDevice D] in
/-- Filling free slots of the two pools keeps the others. -/
theorem keeps_withVnode {slot : Nat} (hn : freeVnodeSlot drv = some n)
    (hslot : freeDataSlot drv = some slot) (k t type : Nat) :
    Keeps drv (withVnode drv n slot k t type) := by
  obtain ⟨-, hfree⟩ := Vfs.firstFree_spec hn
  obtain ⟨-, hfree'⟩ := Vfs.firstFree_spec hslot
  refine ⟨fun m hm => Function.update_of_ne ?_ _ _, fun j hj => Function.update_of_ne ?_ _ _⟩
  · rintro rfl
    rw [hfree] at hm
    cases hm
  · rintro rfl
    rw [hfree'] at hj
    cases hj

omit [ReliableDevice D] in
/-- A vnode that is taken and given back again leaves the others. -/
theorem keeps_vfsFreeVnode {slot : Nat} (hn : freeVnodeSlot drv = some n)
    (hslot : freeDataSlot drv = some slot) (k t type : Nat) :
    Keeps drv (Vfs.vfsFreeVnode (some n) (withVnode drv n slot k t type)).2 := by
  have hkeeps := keeps_withVnode hn hslot k t type
  refine ⟨fun m hm => ?_, hkeeps.vnodeData⟩
  have hne : m ≠ n := by
    rintro rfl
    rw [(Vfs.firstFree_spec hn).2] at hm
    cases hm
  exact (Function.update_of_ne hne _ _).trans (hkeeps.vnodes m hm)

theorem stands_withVnode (drv : Drivers (NyfsState D)) (n slot k t : Nat) :
    Stands k (withVnode drv n slot k t (vnodeType ((drv.fs.volumes k).view.inode t))) n t :=
  ⟨slot, Function.update_self .., Function.update_self ..⟩

/-- The cache has grown over a volume that is as before. -/
structure Grown (k : Nat) (L : Layout) (r : Nat) (nodes : Nat → Node) (s : VfsState (NyfsState D))
    (kids : Nat → List Nat) (ino : Nat → Nat) (s' : VfsState (NyfsState D))
    (kids' : Nat → List Nat) (ino' : Nat → Nat) : Prop where
  coherent : Coherent k L r s' kids' ino' nodes
  grows : Vfs.Grows s kids s' kids'
  volumes : s'.drv.fs.volumes = s.drv.fs.volumes
  cred : s'.drv.fs.cred = s.drv.fs.cred
  handleSlots : s'.drv.fs.handleSlots = s.drv.fs.handleSlots
  same : ∀ d, Cached kids r d → ino' d = ino d

theorem Grown.refl (h : Coherent k L r s kids ino nodes) :
    Grown k L r nodes s kids ino s kids ino :=
  ⟨h, Vfs.Grows.refl, rfl, rfl, rfl, fun _ _ => rfl⟩

omit [ReliableDevice D] in
theorem Cached.grows (hd : Cached kids r d) (h : Vfs.Grows s kids s' kids') :
    Cached kids' r d :=
  hd.imp_right (fun ⟨p, hp⟩ => ⟨p, h.kids_sub hp⟩)

theorem Grown.trans {s'' : VfsState (NyfsState D)} {kids'' : Nat → List Nat} {ino'' : Nat → Nat}
    (h : Grown k L r nodes s kids ino s' kids' ino')
    (h' : Grown k L r nodes s' kids' ino' s'' kids'' ino'') :
    Grown k L r nodes s kids ino s'' kids'' ino'' where
  coherent := h'.coherent
  grows := h.grows.trans h'.grows
  volumes := h'.volumes.trans h.volumes
  cred := h'.cred.trans h.cred
  handleSlots := h'.handleSlots.trans h.handleSlots
  same := fun d hd => (h'.same d (hd.grows h.grows)).trans (h.same d hd)

/-- A step keeps the invariant, and a child that it returns has the name, and no children when it is
new. -/
theorem ChildStep.grown {res : Except Stop Nat} (h : Coherent k L r s kids ino nodes)
    (hcur : Cached kids r cur) (hstep : ChildStep k s (ino cur) cur name res s') :
    ∃ kids' ino', Grown k L r nodes s kids ino s' kids' ino' ∧
      ∀ c, res = .ok c → c ∈ kids' cur ∧ (s'.dentries c).name = name ∧
        (cachedChild s.dentries cur name = none → kids' c = []) := by
  cases hstep with
  | cached c hchild =>
      refine ⟨kids, ino, Grown.refl h, ?_⟩
      rintro c' ⟨⟩
      refine ⟨h.tree.tree.cachedChild_mem hchild, h.tree.tree.cachedChild_name hchild, fun hnone => ?_⟩
      rw [hnone] at hchild
      cases hchild
  | refused e hnone hlookup => exact ⟨kids, ino, Grown.refl h, nofun⟩
  | noVnode t x drv hnone hlookup hno hfs hkeeps hsame =>
      refine ⟨kids, ino, ⟨h.withDrv_same hkeeps (by rw [hfs]) (by rw [hfs]; exact h.cred),
        Vfs.Grows.withDrv drv, ?_, ?_, ?_, fun _ _ => rfl⟩, nofun⟩
      · exact congrArg NyfsState.volumes hfs
      · exact congrArg NyfsState.cred hfs
      · exact congrArg NyfsState.handleSlots hfs
  | noDentry t x n slot hnone hlookup hn hslot hno =>
      have hfree := keeps_vfsFreeVnode hn hslot k t (vnodeType x)
      exact ⟨kids, ino, ⟨h.withDrv_same hfree rfl h.cred, Vfs.Grows.withDrv _, rfl, rfl, rfl,
        fun _ _ => rfl⟩, nofun⟩
  | fresh t x c n slot hnone hlookup hn hslot hc =>
      obtain ⟨hans, rfl⟩ := (h.volume.lookupNode_eq_ok (h.live hcur)).mp hlookup
      obtain ⟨type, hfind⟩ := hans.find
      have hkeeps := keeps_withVnode hn hslot k t
        (vnodeType ((s.drv.fs.volumes k).view.inode t))
      obtain ⟨hlt, hfree⟩ := Vfs.firstFree_spec hc
      have hdrv := h.withDrv_same hkeeps rfl h.cred
      obtain ⟨hcoherent, hgrows, hempty⟩ := hdrv.enter hcur hlt hfree hans.nameOk hnone hfind
        (stands_withVnode s.drv n slot k t)
      refine ⟨_, _, ⟨hcoherent, (Vfs.Grows.withDrv _).trans hgrows, rfl, rfl, rfl, fun d hd => ?_⟩, ?_⟩
      · refine Function.update_of_ne ?_ _ _
        rintro rfl
        have hused := h.used hd
        rw [hfree] at hused
        cases hused
      · rintro c' ⟨⟩
        refine ⟨by rw [Function.update_self]; exact List.mem_cons_self, ?_, fun _ => hempty⟩
        change (entered s.dentries cur c name n c).name = name
        rw [entered, Vfs.attached_name, Function.update_self]
        exact hans.nameOk.take_eq

/-- Nothing is mounted at a root that the cache does not show, and so nothing is found there. -/
theorem Coherent.childStep_bare (h : Coherent k L r s kids ino nodes)
    (hbare : (s.dentries cur).node = none) (missing : Nstatus) (name : Name) :
    childStep nyfsDrivers missing cur name s = (.error (.status missing), s) := by
  have hnone : cachedChild s.dentries cur name = none := by
    cases hchild : cachedChild s.dentries cur name with
    | none => rfl
    | some c =>
        obtain ⟨hcur, -⟩ := h.entry cur c (h.tree.tree.cachedChild_mem hchild)
        obtain ⟨-, n, hnode, -⟩ := h.shows cur hcur
        rw [hbare] at hnode
        cases hnode
  have hfind := h.tree.tree.findChild_run cur name
  rw [hnone] at hfind
  rw [childStep, Eff.bind_ok hfind]
  dsimp only
  rw [Eff.gets_bind_run, hbare]
  rfl

/-- The place a resolution has reached: a dentry that the cache shows, or a root where nothing is
mounted. -/
def Reached (s : VfsState (NyfsState D)) (kids : Nat → List Nat) (r d : Nat) : Prop :=
  Cached kids r d ∨ (s.dentries d).node = none ∧ Vfs.IsRoot s d

/-- The cache has grown, and the result, if there is one, is good. -/
def Advances {α : Type} (good : α → VfsState (NyfsState D) → (Nat → List Nat) → (Nat → Nat) → Prop)
    (k : Nat) (L : Layout) (r : Nat) (nodes : Nat → Node) (s : VfsState (NyfsState D))
    (kids : Nat → List Nat) (ino : Nat → Nat) (res : Except Stop α)
    (s' : VfsState (NyfsState D)) : Prop :=
  ∃ kids' ino', Grown k L r nodes s kids ino s' kids' ino' ∧
    ∀ a, res = .ok a → good a s' kids' ino'

section Advances

variable {α : Type} {good : α → VfsState (NyfsState D) → (Nat → List Nat) → (Nat → Nat) → Prop}

theorem Coherent.stays (h : Coherent k L r s kids ino nodes) {a : α} (ha : good a s kids ino) :
    Eff.Post (pure a) s (Advances good k L r nodes s kids ino) := by
  refine Eff.post_of_eq rfl ⟨kids, ino, Grown.refl h, ?_⟩
  rintro a' ⟨⟩
  exact ha

theorem Coherent.fails (h : Coherent k L r s kids ino nodes) (e : Nstatus) :
    Eff.Post (failWith e) s (Advances good k L r nodes s kids ino) :=
  Eff.post_of_eq rfl ⟨kids, ino, Grown.refl h, nofun⟩

/-- A step is taken to a child that the directory holds on the volume, and the resolution goes on
from there. -/
theorem Coherent.childStep_bind (h : Coherent k L r s kids ino nodes)
    (hcur : Reached s kids r cur) (missing : Nstatus) (name : Name)
    {f : Nat → Vfs.VfsM (NyfsState D) α}
    (hf : ∀ c s' kids' ino', Cached kids r cur → Grown k L r nodes s kids ino s' kids' ino' →
      Cached kids' r c → (lookupNode (ino cur) name ⟨0, 0⟩ (s.drv.fs.volumes k)).1 =
        .ok (ino' c, (s.drv.fs.volumes k).view.inode (ino' c)) →
      Eff.Post (f c) s' (Advances good k L r nodes s' kids' ino')) :
    Eff.Post (childStep nyfsDrivers missing cur name >>= f) s
      (Advances good k L r nodes s kids ino) := by
  rcases hcur with hcur | ⟨hbare, -⟩
  · have hcases := h.childStep_cases hcur missing name
    cases hrun : childStep nyfsDrivers missing cur name s with
    | mk res s₁ =>
        rw [hrun] at hcases
        obtain ⟨kids₁, ino₁, hgrown, hok⟩ := hcases.grown h hcur
        cases res with
        | error e => exact Eff.post_bind_error hrun ⟨kids₁, ino₁, hgrown, nofun⟩
        | ok c =>
            obtain ⟨hmem, hname, -⟩ := hok c rfl
            obtain ⟨-, type, hfind⟩ := hgrown.coherent.entry cur c hmem
            rw [hgrown.same cur hcur, hname] at hfind
            have hlookup := h.volume.lookupNode_root (h.live hcur) hfind
            refine Eff.post_bind_ok hrun (Eff.post_mono
              (hf c s₁ kids₁ ino₁ hcur hgrown (Or.inr ⟨cur, hmem⟩) hlookup) ?_)
            rintro res s₂ ⟨kids₂, ino₂, hgrown₂, hok₂⟩
            exact ⟨kids₂, ino₂, hgrown.trans hgrown₂, hok₂⟩
  · exact Eff.post_bind_error (h.childStep_bare hbare missing name)
      ⟨kids, ino, Grown.refl h, nofun⟩

end Advances

/-! ## Whole paths -/

theorem Coherent.not_cached_of_bare (h : Coherent k L r s kids ino nodes)
    (hbare : (s.dentries d).node = none) : ¬Cached kids r d := by
  intro hd
  obtain ⟨-, n, hnode, -⟩ := h.shows d hd
  rw [hbare] at hnode
  cases hnode

/-- A dentry that a resolution ends at is a bare root, or the resolution has started at a cached
dentry and the dentry stands for what the volume has at the end of the path. -/
def EndsOn (started : Prop) (found : Option Nat) (r d : Nat) (s : VfsState (NyfsState D))
    (kids : Nat → List Nat) (ino : Nat → Nat) : Prop :=
  Reached s kids r d ∧ (Cached kids r d → started ∧ found = some (ino d))

/-- The loop of {lit}`resolve_path_internal_ns`. -/
theorem Coherent.resolveLoop_post (h : Coherent k L r s kids ino nodes)
    (hcur : Reached s kids r cur) (fuel : Nat) (cursor : List UInt8) :
    Eff.Post (Vfs.resolveLoop nyfsDrivers fuel cur cursor) s
      (Advances (EndsOn (Cached kids r cur) (diskLoop (s.drv.fs.volumes k) fuel (ino cur) cursor) r)
        k L r nodes s kids ino) := by
  induction fuel generalizing s kids ino cur cursor with
  | zero => exact h.stays ⟨hcur, fun hcached => ⟨hcached, rfl⟩⟩
  | succ fuel ih =>
      rw [Vfs.resolveLoop]
      by_cases hempty : cursor = []
      · rw [if_pos hempty]
        exact h.stays ⟨hcur, fun hcached => ⟨hcached, by rw [diskLoop, if_pos hempty]⟩⟩
      rw [if_neg hempty]
      cases hparse : Vfs.parseSegment cursor with
      | error e => exact h.fails _
      | ok segment =>
          obtain ⟨name, rest⟩ := segment
          dsimp only
          by_cases hname : name = []
          · rw [if_pos hname]
            refine h.stays ⟨hcur, fun hcached => ⟨hcached, ?_⟩⟩
            rw [diskLoop, if_neg hempty, hparse]
            exact if_pos hname
          rw [if_neg hname]
          refine h.childStep_bind hcur _ name (fun c s' kids' ino' hstart hgrown hc hlookup => ?_)
          refine Eff.post_mono (ih hgrown.coherent (Or.inl hc) rest) ?_
          rintro res s'' ⟨kids'', ino'', hgrown', hok⟩
          refine ⟨kids'', ino'', hgrown', fun d hd => ⟨(hok d hd).1, fun hcached => ⟨hstart, ?_⟩⟩⟩
          obtain ⟨-, hdisk⟩ := (hok d hd).2 hcached
          rw [hgrown.volumes] at hdisk
          rw [diskLoop, if_neg hempty, hparse]
          dsimp only
          rw [if_neg hname, hlookup]
          exact hdisk

/-- The same of a directory and the last component behind it. -/
def EndsIn (started : Prop) (found : Option (Nat × Name)) (r : Nat) (a : Nat × (Name ⊕ List UInt8))
    (s : VfsState (NyfsState D)) (kids : Nat → List Nat) (ino : Nat → Nat) : Prop :=
  Reached s kids r a.1 ∧ ∀ name, a.2 = .inl name → name ≠ [] ∧
    (Cached kids r a.1 → started ∧ found = some (ino a.1, name))

/-- The loop of {lit}`resolve_parent_ns`. -/
theorem Coherent.parentLoop_post (h : Coherent k L r s kids ino nodes)
    (hcur : Reached s kids r cur) (fuel : Nat) (cursor : List UInt8) :
    Eff.Post (Vfs.parentLoop nyfsDrivers fuel cur cursor) s
      (Advances (EndsIn (Cached kids r cur)
        (diskParentLoop (s.drv.fs.volumes k) fuel (ino cur) cursor) r) k L r nodes s kids ino) := by
  induction fuel generalizing s kids ino cur cursor with
  | zero => exact h.stays ⟨hcur, nofun⟩
  | succ fuel ih =>
      rw [Vfs.parentLoop]
      by_cases hempty : cursor = []
      · rw [if_pos hempty]
        exact h.stays ⟨hcur, nofun⟩
      rw [if_neg hempty]
      cases hparse : Vfs.parseSegment cursor with
      | error e => exact h.fails _
      | ok segment =>
          obtain ⟨name, rest⟩ := segment
          dsimp only
          by_cases hname : name = []
          · rw [if_pos hname]
            exact h.stays ⟨hcur, nofun⟩
          rw [if_neg hname]
          by_cases hlast : Vfs.skipSlashes rest = []
          · rw [if_pos hlast]
            refine h.stays ⟨hcur, ?_⟩
            rintro name' ⟨⟩
            refine ⟨hname, fun hcached => ⟨hcached, ?_⟩⟩
            rw [diskParentLoop, if_neg hempty, hparse]
            dsimp only
            rw [if_neg hname, if_pos hlast]
          rw [if_neg hlast]
          refine h.childStep_bind hcur _ name (fun c s' kids' ino' hstart hgrown hc hlookup => ?_)
          refine Eff.post_mono (ih hgrown.coherent (Or.inl hc) (Vfs.skipSlashes rest)) ?_
          rintro res s'' ⟨kids'', ino'', hgrown', hok⟩
          refine ⟨kids'', ino'', hgrown', fun a ha => ⟨(hok a ha).1, fun last hlast' => ?_⟩⟩
          obtain ⟨hne, hdisk⟩ := (hok a ha).2 last hlast'
          refine ⟨hne, fun hcached => ⟨hstart, ?_⟩⟩
          rw [hgrown.volumes] at hdisk
          rw [diskParentLoop, if_neg hempty, hparse]
          dsimp only
          rw [if_neg hname, if_neg hlast, hlookup]
          exact (hdisk hcached).2

/-- The inode that a local path names on the volume. -/
def diskNode (v : Volume D) (localPath : List UInt8) : Option Nat :=
  diskLoop v (Vfs.startCursor localPath).length nyfsRootIno (Vfs.startCursor localPath)

/-- The directory of a local path on the volume, and its last component. -/
def diskParent (v : Volume D) (localPath : List UInt8) : Option (Nat × Name) :=
  diskParentLoop v (Vfs.startCursor localPath).length nyfsRootIno (Vfs.startCursor localPath)

/-- A path starts at the root of the mount or at a bare root. -/
theorem Coherent.startOf_reached (h : Coherent k L r s kids ino nodes) {ns : Nat}
    (hns : (s.namespaces ns).inUse) (path : List UInt8) :
    Reached s kids r (Vfs.startOf (s.namespaces ns) path) ∧
      (Cached kids r (Vfs.startOf (s.namespaces ns) path) →
        Vfs.startOf (s.namespaces ns) path = r) := by
  have hroot := Vfs.startOf_isRoot hns path
  rcases h.roots _ hroot with heq | hbare
  · exact ⟨Or.inl (Or.inl heq), fun _ => heq⟩
  · exact ⟨Or.inr ⟨hbare, hroot⟩, fun hcached => absurd hcached (h.not_cached_of_bare hbare)⟩

/-- {lit}`resolve_path_internal_ns`. -/
theorem Coherent.resolvePath_post (h : Coherent k L r s kids ino nodes) {ns : Nat}
    (hns : (s.namespaces ns).inUse) (localPath : List UInt8) :
    Eff.Post (Vfs.resolvePathInternalNs nyfsDrivers ns localPath) s
      (Advances (EndsOn (Vfs.startOf (s.namespaces ns) localPath = r)
        (diskNode (s.drv.fs.volumes k) localPath) r) k L r nodes s kids ino) := by
  unfold Vfs.resolvePathInternalNs
  obtain ⟨hreached, hstart⟩ := h.startOf_reached hns localPath
  refine Eff.post_gets_bind (Eff.post_mono (h.resolveLoop_post hreached _ _) ?_)
  rintro res s' ⟨kids', ino', hgrown, hok⟩
  refine ⟨kids', ino', hgrown, fun d hd => ⟨(hok d hd).1, fun hcached => ?_⟩⟩
  obtain ⟨hcur, hdisk⟩ := (hok d hd).2 hcached
  rw [hstart hcur, h.top] at hdisk
  exact ⟨hstart hcur, hdisk⟩

/-- {lit}`resolve_parent_ns`. -/
theorem Coherent.resolveParent_post (h : Coherent k L r s kids ino nodes) {ns : Nat}
    (hns : (s.namespaces ns).inUse) (localPath : List UInt8) :
    Eff.Post (Vfs.resolveParentNs nyfsDrivers ns localPath) s
      (Advances (fun a s' kids' ino' => Reached s' kids' r a.1 ∧ (a.2 ≠ [] → Cached kids' r a.1 →
        Vfs.startOf (s.namespaces ns) localPath = r ∧
          diskParent (s.drv.fs.volumes k) localPath = some (ino' a.1, a.2)))
        k L r nodes s kids ino) := by
  unfold Vfs.resolveParentNs
  obtain ⟨hreached, hstart⟩ := h.startOf_reached hns localPath
  refine Eff.post_gets_bind (Eff.post_bind (h.parentLoop_post hreached _ _) ?_ ?_)
  · rintro e s' ⟨kids', ino', hgrown, -⟩
    exact ⟨kids', ino', hgrown, nofun⟩
  · rintro ⟨d, out⟩ s' ⟨kids', ino', hgrown, hok⟩
    obtain ⟨hd, hends⟩ := hok (d, out) rfl
    cases out with
    | inl name =>
        refine Eff.post_of_eq rfl ⟨kids', ino', hgrown, ?_⟩
        rintro a ⟨⟩
        refine ⟨hd, fun _ hcached => ?_⟩
        obtain ⟨hcur, hdisk⟩ := (hends name rfl).2 hcached
        rw [hstart hcur, h.top] at hdisk
        exact ⟨hstart hcur, hdisk⟩
    | inr cursor =>
        dsimp only
        split
        next =>
          refine Eff.post_of_eq rfl ⟨kids', ino', hgrown, ?_⟩
          rintro a ⟨⟩
          exact ⟨hd, fun hne => absurd rfl hne⟩
        next => exact Eff.post_of_eq rfl ⟨kids', ino', hgrown, nofun⟩

end Nyfs
end Nyxis
