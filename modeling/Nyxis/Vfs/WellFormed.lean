import Nyxis.Vfs.Resolve

/-!
# Well-formedness of the dentry tree over runs

Calls of the virtual file system are made in any order, over any drivers.  The
dentry tree stays well formed as long as no call frees a dentry that a namespace
still names, that has a namespace root among its children, or that is being moved
by the same call.

Main results:

- Definition {lit}`WellFormed`: the shape of the tree that everything reachable from
  the namespaces has.
- Definition {lit}`Call.Safe`: the condition on a call.
- Theorem {lit}`tree_wellFormed`: the tree is well formed after every run of safe
  calls.
-/

namespace Nyxis
namespace Vfs

variable {σ : Type} {v v' : VfsState σ} {kids kids' : Nat → List Nat}
  {drivers : Nat → VfsOps σ}

/-- The invariant holds for some child lists. -/
def Kept (v : VfsState σ) : Prop :=
  ∃ kids, Sound v kids

/-- The invariant does not depend on names and vnodes. -/
theorem Sound.congr {ds : Nat → Dentry} (h : Sound v kids)
    (hfirst : ∀ d, (ds d).firstChild = (v.dentries d).firstChild)
    (hnext : ∀ d, (ds d).nextSibling = (v.dentries d).nextSibling)
    (hparent : ∀ d, (ds d).parent = (v.dentries d).parent)
    (hused : ∀ d, (ds d).inUse = (v.dentries d).inUse) :
    Sound { v with dentries := ds } kids where
  tree := h.tree.congr hfirst hnext hparent hused
  root_used := by
    intro r hr
    rw [hused]
    exact h.root_used r hr
  seated := by
    intro r hr
    rw [hnext]
    exact h.seated r hr
  default_used := h.default_used

/-- Giving a dentry another vnode. -/
theorem Sound.setNode (h : Sound v kids) (i : Nat) (node : Option Nat) :
    Sound (setDentry i (fun e => { e with node := node }) v).2 kids := by
  refine h.congr ?_ ?_ ?_ ?_ <;>
  · intro d
    by_cases hd : d = i
    · subst hd
      simp
    · simp [hd]

/-! ## Namespaces -/

/-- Pointing a namespace at a dentry of the tree. -/
theorem Sound.setRoot (h : Sound v kids) {i d : Nat} (hi : (v.namespaces i).inUse)
    (hd : Placed v kids d) :
    Sound (setNamespace i (fun ns => { ns with root := d, cwd := d }) v).2 kids := by
  have hroots : ∀ r, IsRoot (setNamespace i (fun ns => { ns with root := d, cwd := d }) v).2 r →
      r = d ∨ IsRoot v r := by
    rintro r ⟨j, hj, hr⟩
    simp only [setNamespace, Eff.modify_run] at hj hr
    by_cases hji : j = i
    · subst hji
      simp only [Function.update_self, or_self] at hr
      exact Or.inl hr
    · rw [Function.update_of_ne hji] at hj hr
      exact Or.inr ⟨j, hj, hr⟩
  refine ⟨h.tree, ?_, ?_, ?_⟩
  · intro r hr
    rcases hroots r hr with rfl | hroot
    · exact h.placed_used hd
    · exact h.root_used r hroot
  · intro r hr
    rcases hroots r hr with rfl | hroot
    · rcases hd with hroot | hkid
      · exact h.seated r hroot
      · exact Or.inl hkid
    · exact h.seated r hroot
  · intro j hj
    have hused := h.default_used j hj
    simp only [setNamespace, Eff.modify_run]
    by_cases hji : j = i
    · subst hji
      rw [Function.update_self]
      exact hused
    · rwa [Function.update_of_ne hji]

/-- Filling a free namespace slot with a dentry that has no sibling link. -/
theorem Sound.newNamespace (h : Sound v kids) (name : Name) {i d : Nat}
    (hfree : (v.namespaces i).inUse = false) (hd : (v.dentries d).inUse)
    (hnext : (v.dentries d).nextSibling = none) :
    Sound (setNamespace i (fun _ => { name := name, root := d, cwd := d, inUse := true }) v).2
      kids := by
  have hroots : ∀ r, IsRoot (setNamespace i
      (fun _ => { name := name, root := d, cwd := d, inUse := true }) v).2 r →
      r = d ∨ IsRoot v r := by
    rintro r ⟨j, hj, hr⟩
    simp only [setNamespace, Eff.modify_run] at hj hr
    by_cases hji : j = i
    · subst hji
      simp only [Function.update_self, or_self] at hr
      exact Or.inl hr
    · rw [Function.update_of_ne hji] at hj hr
      exact Or.inr ⟨j, hj, hr⟩
  refine ⟨h.tree, ?_, ?_, ?_⟩
  · intro r hr
    rcases hroots r hr with rfl | hroot
    · exact hd
    · exact h.root_used r hroot
  · intro r hr
    rcases hroots r hr with rfl | hroot
    · exact Or.inr hnext
    · exact h.seated r hroot
  · intro j hj
    have hused := h.default_used j hj
    have hji : j ≠ i := by
      rintro rfl
      rw [hfree] at hused
      cases hused
    simp only [setNamespace, Eff.modify_run, Function.update_of_ne hji]
    exact hused

/-- Writing a dentry without children to a free slot. -/
theorem Sound.setFree (h : Sound v kids) {i : Nat} (hi : i < vfsMaxDentries)
    (hfree : (v.dentries i).inUse = false) {e : Dentry} (he : e.firstChild = none) :
    Sound { v with dentries := Function.update v.dentries i e } kids := by
  have hkeep : ∀ r, IsRoot v r → Function.update v.dentries i e r = v.dentries r := by
    intro r hr
    refine Function.update_of_ne ?_ _ _
    rintro rfl
    have hused := h.root_used r hr
    rw [hfree] at hused
    cases hused
  refine ⟨h.tree.setFree hi hfree he, ?_, ?_, h.default_used⟩
  · intro r hr
    change (Function.update v.dentries i e r).inUse = true
    rw [hkeep r hr]
    exact h.root_used r hr
  · intro r hr
    change _ ∨ (Function.update v.dentries i e r).nextSibling = none
    rw [hkeep r hr]
    exact h.seated r hr

/-- Creating a namespace fills a free slot, or finds none. -/
theorem createNamespace_run (name : Name) (root : Nat) (v : VfsState σ) :
    createNamespace name root v = (.ok none, v) ∨
      ∃ i, (v.namespaces i).inUse = false ∧
        createNamespace name root v = (.ok (some i), (setNamespace i (fun _ =>
          { name := name.take vfsNameMax, root := root, cwd := root, inUse := true }) v).2) := by
  unfold createNamespace
  rw [Eff.gets_bind_run]
  cases hfree : firstFree (fun i => (v.namespaces i).inUse) vfsMaxNamespaces with
  | none => exact Or.inl rfl
  | some i => exact Or.inr ⟨i, (firstFree_spec hfree).2, rfl⟩

/-- Looking up a namespace, or creating it. -/
theorem Sound.getNamespace_post (h : Sound v kids) (name : Name) :
    Eff.Post (getNamespace name true) v (fun r v' =>
      Sound v' kids ∧ (∀ d, Placed v kids d → Placed v' kids d) ∧
        ∀ ns, r = .ok (some ns) → (v'.namespaces ns).inUse) := by
  by_cases hfound : name = [] ∨ (findNamespace v.namespaces name).isSome
  · have hrun : getNamespace name true v = (.ok (lookupNamespace v name), v) := by
      unfold getNamespace lookupNamespace
      rcases hfound with hname | hfound
      · rw [if_pos hname, if_pos hname]
        rfl
      · split
        next => rfl
        next =>
          rw [Eff.gets_bind_run]
          simp only [hfound, true_or, if_true]
          rfl
    refine Eff.post_of_eq hrun ⟨h, fun _ hd => hd, fun ns hns => ?_⟩
    exact h.lookupNamespace_used (Except.ok.inj hns)
  · rw [not_or] at hfound
    unfold getNamespace
    rw [if_neg hfound.1]
    refine Eff.post_gets_bind ?_
    dsimp only
    rw [if_neg (by simpa using hfound.2)]
    rcases allocDentry_run [] none none v with hnone | ⟨d, hd, hfree, hsome⟩
    · exact Eff.post_bind_ok hnone (Eff.post_of_eq rfl
        ⟨h, fun _ hd => hd, fun ns hns => by cases hns⟩)
    · refine Eff.post_bind_ok hsome ?_
      have hsound := h.setFree hd hfree (e := freshDentry [] none none) rfl
      rcases createNamespace_run name d { v with
        dentries := Function.update v.dentries d (freshDentry [] none none) } with
        hnone | ⟨i, hifree, hslot⟩
      · refine Eff.post_bind_ok hnone ?_
        have hrun : (do freeDentry d; pure none : VfsM σ (Option Nat)) { v with
            dentries := Function.update v.dentries d (freshDentry [] none none) } =
            (.ok none, { v with dentries := Function.update v.dentries d Dentry.zero }) := by
          simp only [bind, Eff.andThen, pure, Eff.ret, freeDentry, setDentry, Eff.modify,
            Function.update_self, Function.update_idem]
          rfl
        exact Eff.post_of_eq hrun ⟨h.setFree hd hfree rfl, fun _ hd => hd,
          fun ns hns => by cases hns⟩
      · refine Eff.post_bind_ok hslot (Eff.post_of_eq rfl ?_)
        refine ⟨hsound.newNamespace _ hifree ?_ ?_, ?_, ?_⟩
        · simp [freshDentry]
        · simp [freshDentry, Dentry.zero]
        · rintro x (⟨j, hj, hx⟩ | hkid)
          · refine Or.inl ⟨j, ?_⟩
            have hji : j ≠ i := by
              rintro rfl
              rw [hifree] at hj
              cases hj
            simp only [setNamespace, Eff.modify_run, Function.update_of_ne hji]
            exact ⟨hj, hx⟩
          · exact Or.inr hkid
        · intro ns hns
          cases hns
          simp [setNamespace]

/-! ## Releasing and moving dentries -/

/-- A dentry that may be freed: no namespace names it, and no namespace root among its
children has a sibling behind it. -/
def Releasable (v : VfsState σ) (d : Nat) : Prop :=
  ¬ IsRoot v d ∧
    ∀ r, IsRoot v r → (v.dentries r).parent = some d → (v.dentries r).nextSibling = none

/-- A dentry that resolution has just created may be freed. -/
theorem Sound.releasable_new {d : Nat} (h : Sound v kids) (hgrows : Grows v kids v' kids')
    (hfree : (v.dentries d).inUse = false) : Releasable v' d := by
  refine ⟨fun hroot => ?_, fun r hr hparent => ?_⟩
  · have hused := h.root_used d (hgrows.isRoot.mp hroot)
    rw [hfree] at hused
    cases hused
  · -- a root with this parent field is no child of the new dentry, so it has no sibling
    have hr' := hgrows.isRoot.mp hr
    obtain ⟨f, hf⟩ := hgrows.old r (h.root_used r hr')
    rw [hf] at hparent ⊢
    rcases h.seated r hr' with ⟨e, he⟩ | hnext
    · have heq := (h.tree.parent e r he).symm.trans hparent
      cases heq
      have hused := (h.tree.used d r he).1
      rw [hfree] at hused
      cases hused
    · exact hnext

/-- Releasing a child that may be freed keeps the invariant. -/
theorem Sound.release {p d : Nat} {ds : Nat → Dentry} (h : Sound v kids) (hd : d ∈ kids p)
    (hrel : Releasable v d) (hds : Released v.dentries kids p d ds) (drv : Drivers σ) :
    Sound { v with dentries := ds, drv := drv } (dropped kids p d) := by
  have hne : ∀ r, IsRoot v r → r ≠ d := by
    rintro r hr rfl
    exact hrel.1 hr
  refine ⟨hds.tree, ?_, ?_, h.default_used⟩
  · intro r hr
    refine (hds.kept r (hne r hr)).trans ?_
    exact h.root_used r hr
  · intro r hr
    rcases h.seated r hr with ⟨e, he⟩ | hnext
    · by_cases hed : e = d
      · subst hed
        exact Or.inr (hds.next r (hrel.2 r hr (h.tree.parent e r he)))
      · exact Or.inl ⟨e, mem_dropped he (hne r hr) hed⟩
    · exact Or.inr (hds.next r hnext)

/-- Moving a dentry keeps the invariant. -/
theorem Sound.relocate {oldParent newParent d : Nat} {name : Name} {ds : Nat → Dentry}
    (h : Sound v kids) (hds : Relocated v.dentries kids oldParent newParent d name ds) :
    Sound { v with dentries := ds } (moved kids oldParent newParent d) := by
  refine ⟨hds.tree, ?_, ?_, h.default_used⟩
  · intro r hr
    exact (hds.used r).trans (h.root_used r hr)
  · intro r hr
    by_cases hrd : r = d
    · subst hrd
      exact Or.inl ⟨newParent, mem_moved_self⟩
    · rcases h.seated r hr with ⟨e, he⟩ | hn
      · exact Or.inl ⟨e, mem_moved he hrd⟩
      · exact Or.inr (hds.next r hrd hn)

theorem Sound.dropDentry_post {p d : Nat} (h : Sound v kids) (hd : d ∈ kids p)
    (hrel : Releasable v d) :
    Eff.Post (dropDentry p d) v (fun r v' =>
      r = .ok () ∧ Sound v' (dropped kids p d) ∧
        ∀ x, x ≠ d → (v'.dentries x).inUse = (v.dentries x).inUse) := by
  obtain ⟨ds, hrun, hds⟩ := h.tree.drop_run hd
  exact Eff.post_of_eq hrun ⟨rfl, h.release hd hrel hds _, hds.kept⟩

theorem Sound.moveDentry_post {oldParent newParent d : Nat} (h : Sound v kids) (name : Name)
    (hold : ∀ e, d ∈ kids e → e = oldParent) (hd : (v.dentries d).inUse)
    (hnew : (v.dentries newParent).inUse) (hne : d ≠ newParent) :
    Eff.Post (moveDentry oldParent newParent d name) v (fun _ v' => Kept v') := by
  obtain ⟨ds, hrun, hds⟩ := h.tree.move_run name hold hd hnew hne
  exact Eff.post_of_eq hrun ⟨_, h.relocate hds⟩

/-! ## The calls -/

/-- The state after the namespace of a path has been looked up. -/
theorem Sound.namespace_bind {α : Type} (h : Sound v kids) {buffer path : List UInt8}
    {f : Nat × List UInt8 → VfsM σ α}
    (hf : ∀ ns localPath, namespaceOf v buffer path = some (ns, localPath) →
      Eff.Post (f (ns, localPath)) v (fun _ v' => Kept v')) :
    Eff.Post (resolveNamespacePath buffer path false >>= f) v (fun _ v' => Kept v') := by
  rcases resolveNamespacePath_run buffer path v with ⟨e, hrun⟩ | ⟨ns, localPath, hns, hrun⟩
  · exact Eff.post_bind_error hrun ⟨kids, h⟩
  · exact Eff.post_bind_ok hrun (hf ns localPath hns)

/-- What a call does after it has resolved a path. -/
theorem Sound.path_bind {α : Type} (h : Sound v kids) {buffer path localPath : List UInt8}
    {ns : Nat} {f : Nat → VfsM σ α} (hns : namespaceOf v buffer path = some (ns, localPath))
    (hf : ∀ d v' kids', Sound v' kids' → Grows v kids v' kids' →
      EndsAt v v' kids' (namedDentry v buffer path = some d) d →
      Eff.Post (f d) v' (fun _ v'' => Kept v'')) :
    Eff.Post (resolvePathInternalNs drivers ns localPath >>= f) v (fun _ v' => Kept v') := by
  refine Eff.post_bind (h.resolvePath_post (h.namespaceOf_used hns) localPath) ?_ ?_
  · rintro e v' ⟨kids', hsound, _, _⟩
    exact ⟨kids', hsound⟩
  · rintro d v' ⟨kids', hsound, hgrows, hends⟩
    have hnamed : namedDentry v buffer path = namedIn v ns localPath := by
      rw [namedDentry, hns]
    rw [hnamed] at hf
    exact hf d v' kids' hsound hgrows (hends d rfl)

/-- A call of a driver leaves the tree alone. -/
theorem Sound.callDriver_bind {α β : Type} (h : Sound v kids) {c : DriverM σ α}
    {f : α → VfsM σ β}
    (hf : ∀ x drv, c v.drv = (.ok x, drv) →
      Eff.Post (f x) { v with drv := drv } (fun _ v' => Kept v')) :
    Eff.Post (callDriver c >>= f) v (fun _ v' => Kept v') := by
  cases hrun : c v.drv with
  | mk r drv =>
      have hcall : callDriver c v = (r, { v with drv := drv }) := by
        rw [callDriver, hrun]
      cases r with
      | error stop => exact Eff.post_bind_error hcall ⟨kids, h.withDrv drv⟩
      | ok x => exact Eff.post_bind_ok hcall (hf x drv hrun)

theorem Sound.callDriver_post {α : Type} (h : Sound v kids) (c : DriverM σ α) :
    Eff.Post (callDriver c) v (fun _ v' => Kept v') :=
  ⟨kids, h.withDrv _⟩

theorem Sound.kept_fail {α : Type} (h : Sound v kids) (e : Nstatus) :
    Eff.Post (failWith e : VfsM σ α) v (fun _ v' => Kept v') :=
  ⟨kids, h⟩

/-- {lit}`vfs_register_namespace`. -/
theorem Sound.vfsRegisterNamespace_post (h : Sound v kids) (buffer : List UInt8) (name : Name)
    (source : List UInt8) :
    Eff.Post (vfsRegisterNamespace drivers buffer name source) v (fun _ v' => Kept v') := by
  unfold vfsRegisterNamespace
  refine h.namespace_bind (fun ns localPath hns => h.path_bind hns ?_)
  intro root v₁ kids₁ h₁ _ hends
  refine Eff.post_bind (h₁.getNamespace_post name) ?_ ?_
  · rintro e v₂ ⟨h₂, _⟩
    exact ⟨kids₁, h₂⟩
  · rintro target v₂ ⟨h₂, hplaced, hused⟩
    cases target with
    | none => exact h₂.kept_fail _
    | some target => exact ⟨kids₁, h₂.setRoot (hused target rfl) (hplaced root hends.1)⟩

/-- What a call does after it has resolved the directory of a path. -/
theorem Sound.parent_bind {α : Type} (h : Sound v kids) {localPath : List UInt8} {ns : Nat}
    {f : Nat × Name → VfsM σ α} (hns : (v.namespaces ns).inUse)
    (hroot : ∀ d v' kids', Sound v' kids' → Grows v kids v' kids' →
      Eff.Post (f (d, [])) v' (fun _ v'' => Kept v''))
    (hf : ∀ d name v' kids', Sound v' kids' → Grows v kids v' kids' → name ≠ [] →
      EndsAt v v' kids' (∀ t, cachedChild v.dentries d name = some t →
        namedIn v ns localPath = some t) d →
      Eff.Post (f (d, name)) v' (fun _ v'' => Kept v'')) :
    Eff.Post (resolveParentNs drivers ns localPath >>= f) v (fun _ v' => Kept v') := by
  refine Eff.post_bind (h.resolveParent_post hns localPath) ?_ ?_
  · rintro e v' ⟨kids', hsound, _, _⟩
    exact ⟨kids', hsound⟩
  · rintro ⟨d, name⟩ v' ⟨kids', hsound, hgrows, hends⟩
    by_cases hname : name = []
    · subst hname
      exact hroot d v' kids' hsound hgrows
    · exact hf d name v' kids' hsound hgrows hname (hends d name rfl hname)

/-- Entering a new child, or doing something else for lack of a slot. -/
theorem Sound.enter_post {parent : Nat} (h : Sound v kids) (hparent : (v.dentries parent).inUse)
    (name : Name) (node : Option Nat) {fallback : VfsM σ Unit}
    (hfallback : Eff.Post fallback v (fun _ v' => Kept v')) :
    Eff.Post (do
      match ← allocDentry name node (some parent) with
      | none => fallback
      | some child => attachChild parent child) v (fun _ v' => Kept v') := by
  rcases allocDentry_run name node (some parent) v with hnone | ⟨i, hi, hfree, hsome⟩
  · exact Eff.post_bind_ok hnone hfallback
  · refine Eff.post_bind_ok hsome ?_
    exact ⟨_, (h.enter hi hfree hparent name node).1⟩

/-- The namespace of a path, which is created when it is missing. -/
theorem Sound.resolveNamespace_create_post (h : Sound v kids) (buffer path : List UInt8) :
    Eff.Post (resolveNamespacePath buffer path true) v (fun r v' =>
      Sound v' kids ∧ ∀ ns localPath, r = .ok (ns, localPath) → (v'.namespaces ns).inUse) := by
  unfold resolveNamespacePath
  cases parseNamespacePath buffer path with
  | error e => exact Eff.post_of_eq rfl ⟨h, fun ns localPath hns => by cases hns⟩
  | ok parsed =>
      obtain ⟨name, localPath⟩ := parsed
      refine Eff.post_bind (h.getNamespace_post name) ?_ ?_
      · rintro e v' ⟨h', _⟩
        exact ⟨h', fun ns localPath hns => by cases hns⟩
      · rintro found v' ⟨h', _, hused⟩
        cases found with
        | none => exact Eff.post_of_eq rfl ⟨h', fun ns localPath hns => by cases hns⟩
        | some i =>
            refine Eff.post_of_eq rfl ⟨h', fun ns localPath hns => ?_⟩
            cases hns
            exact hused i rfl

/-- {lit}`vfs_mount`. -/
theorem Sound.vfsMount_post (h : Sound v kids) (buffer path : List UInt8) (fsRoot : Nat) :
    Eff.Post (vfsMount drivers buffer path fsRoot) v (fun _ v' => Kept v') := by
  unfold vfsMount
  by_cases hempty : path = []
  · rw [if_pos hempty]
    exact h.kept_fail _
  · rw [if_neg hempty]
    refine Eff.post_bind (h.resolveNamespace_create_post buffer path) ?_ ?_
    · rintro e v₁ ⟨h₁, _⟩
      exact ⟨kids, h₁⟩
    · rintro ⟨ns, localPath⟩ v₁ ⟨h₁, hused⟩
      dsimp only
      split
      next =>
        refine Eff.post_gets_bind (Eff.post_gets_bind ?_)
        split
        next => exact h₁.kept_fail _
        next => exact ⟨kids, h₁.setNode _ _⟩
      next =>
        refine h₁.parent_bind (hused ns localPath rfl) ?_ ?_
        · intro d v₂ kids₂ h₂ _
          dsimp only
          rw [if_pos rfl]
          exact h₂.kept_fail _
        · intro d name v₂ kids₂ h₂ _ hname hends
          dsimp only
          rw [if_neg hname]
          refine Eff.post_bind_ok (h₂.tree.findChild_run d name) ?_
          cases cachedChild v₂.dentries d name with
          | some existing =>
              refine Eff.post_gets_bind ?_
              split
              next => exact h₂.kept_fail _
              next => exact ⟨kids₂, h₂.setNode _ _⟩
          | none =>
              exact h₂.enter_post (h₂.placed_used hends.1) name (some fsRoot) (h₂.kept_fail _)

/-- {lit}`vfs_unmount`, of a path whose mount point may be freed. -/
theorem Sound.vfsUnmount_post (h : Sound v kids) {buffer path : List UInt8}
    (hsafe : ∀ ns localPath d, namespaceOf v buffer path = some (ns, localPath) →
      isRootPath localPath = false → namedDentry v buffer path = some d →
      (v.dentries d).node.isSome → (v.dentries d).parent.isSome → Releasable v d) :
    Eff.Post (vfsUnmount drivers buffer path) v (fun _ v' => Kept v') := by
  unfold vfsUnmount
  by_cases hempty : path = []
  · rw [if_pos hempty]
    exact h.kept_fail _
  · rw [if_neg hempty]
    refine h.namespace_bind (fun ns localPath hns => ?_)
    dsimp only
    by_cases hrootPath : isRootPath localPath
    · rw [if_pos hrootPath]
      refine Eff.post_gets_bind (Eff.post_gets_bind ?_)
      split
      next => exact h.kept_fail _
      next => exact ⟨kids, h.setNode _ _⟩
    · rw [if_neg hrootPath]
      refine h.path_bind hns ?_
      intro d v₁ kids₁ h₁ hgrows hends
      refine Eff.post_gets_bind ?_
      split
      next => exact h₁.kept_fail _
      next hnode =>
        cases hparent : (v₁.dentries d).parent with
        | none => exact ⟨kids₁, h₁.setNode _ _⟩
        | some parent =>
            have hrel : Releasable v₁ d := by
              rcases hends with ⟨hplaced, ⟨rfl, hnamed⟩ | hnew⟩
              · refine hsafe ns localPath d hns (by simpa using hrootPath) hnamed ?_ ?_
                · simpa [Option.isSome_iff_ne_none, Option.isNone_iff_eq_none] using hnode
                · rw [hparent]
                  rfl
              · exact h.releasable_new hgrows hnew.1
            rcases hends.1 with hroot | ⟨e, he⟩
            · exact absurd hroot hrel.1
            · have heq := (h₁.tree.parent e d he).symm.trans hparent
              cases heq
              obtain ⟨ds, hrun, -, hreleased⟩ := h₁.tree.release he
              refine Eff.post_bind_ok hrun ?_
              exact ⟨_, h₁.release he hrel hreleased v₁.drv⟩

/-- The calls that resolve a path and then only call a driver. -/
theorem Sound.resolve_call_post {α : Type} (h : Sound v kids) (buffer path : List UInt8)
    {f : Nat → VfsM σ α}
    (hf : ∀ d v' kids', Sound v' kids' → Eff.Post (f d) v' (fun _ v'' => Kept v'')) :
    Eff.Post (resolvePathInternal drivers buffer path >>= f) v (fun _ v' => Kept v') := by
  have hpath : Eff.Post (resolvePathInternal drivers buffer path) v (fun _ v' => Kept v') := by
    unfold resolvePathInternal
    refine h.namespace_bind (fun ns localPath hns => ?_)
    refine Eff.post_mono (h.resolvePath_post (h.namespaceOf_used hns) localPath) ?_
    rintro r v' ⟨kids', h', _⟩
    exact ⟨kids', h'⟩
  refine Eff.post_bind hpath (fun _ _ hkept => hkept) ?_
  rintro d v' ⟨kids', h'⟩
  exact hf d v' kids' h'

/-- {lit}`vfs_open`. -/
theorem Sound.vfsOpen_post (h : Sound v kids) (buffer path : List UInt8) (flags : Nat) :
    Eff.Post (vfsOpen drivers buffer path flags) v (fun _ v' => Kept v') := by
  unfold vfsOpen
  refine h.resolve_call_post buffer path ?_
  intro d v' kids' h'
  refine Eff.post_gets_bind ?_
  split
  next => exact h'.kept_fail _
  next =>
    split
    next => exact h'.kept_fail _
    next => exact h'.callDriver_post _

/-- {lit}`vfs_readdir`. -/
theorem Sound.vfsReaddir_post (h : Sound v kids) (buffer path : List UInt8)
    (index nameMax : Nat) :
    Eff.Post (vfsReaddir drivers buffer path index nameMax) v (fun _ v' => Kept v') := by
  unfold vfsReaddir
  split
  next => exact h.kept_fail _
  next =>
    refine h.resolve_call_post buffer path ?_
    intro d v' kids' h'
    refine Eff.post_gets_bind ?_
    split
    next => exact h'.kept_fail _
    next =>
      split
      next => exact h'.kept_fail _
      next => exact h'.callDriver_post _

/-- {lit}`vfs_create` and {lit}`vfs_mkdir`. -/
theorem Sound.makeEntry_post (h : Sound v kids)
    (make : VfsOps σ → Option (Nat → Name → Nat → DriverM σ (Option Nat)))
    (buffer path : List UInt8) (mode : Nat) :
    Eff.Post (makeEntry drivers make buffer path mode) v (fun _ v' => Kept v') := by
  unfold makeEntry
  by_cases hempty : path = []
  · rw [if_pos hempty]
    exact h.kept_fail _
  · rw [if_neg hempty]
    refine h.namespace_bind (fun ns localPath hns => ?_)
    refine h.parent_bind (h.namespaceOf_used hns) ?_ ?_
    · intro d v₁ kids₁ h₁ _
      dsimp only
      rw [if_pos rfl]
      exact h₁.kept_fail _
    · intro d name v₁ kids₁ h₁ _ hname hends
      dsimp only
      rw [if_neg hname]
      refine Eff.post_gets_bind ?_
      split
      next => exact h₁.kept_fail _
      next =>
        split
        next => exact h₁.kept_fail _
        next =>
          refine Eff.post_bind_ok (h₁.tree.findChild_run d name) (Eff.post_gets_bind ?_)
          split
          next => exact h₁.kept_fail _
          next =>
            refine h₁.callDriver_bind (fun child drv _ => ?_)
            have h₂ := h₁.withDrv drv
            cases cachedChild v₁.dentries d name with
            | some existing => exact ⟨kids₁, h₂.setNode _ _⟩
            | none =>
                refine h₂.enter_post (h₁.placed_used hends.1) name child ?_
                exact h₂.callDriver_bind (fun _ drv' _ => (h₁.withDrv drv').kept_fail _)

/-- The driver accepts the removal of a cached dentry. -/
def UnlinkAccepted (drivers : Nat → VfsOps σ) (v : VfsState σ) (d : Nat) : Prop :=
  ∃ p dir ops unlink, (v.dentries d).parent = some p ∧
    opsOf drivers v (v.dentries p).node = some (dir, ops) ∧ ops.unlink = some unlink ∧
    (unlink dir (v.dentries d).name v.drv).1 = .ok ()

/-- {lit}`vfs_unlink`, of a path whose cached dentry may be freed. -/
theorem Sound.vfsUnlink_post (h : Sound v kids) {buffer path : List UInt8}
    (hsafe : ∀ d, namedDentry v buffer path = some d → UnlinkAccepted drivers v d →
      Releasable v d) :
    Eff.Post (vfsUnlink drivers buffer path) v (fun _ v' => Kept v') := by
  unfold vfsUnlink
  by_cases hempty : path = []
  · rw [if_pos hempty]
    exact h.kept_fail _
  · rw [if_neg hempty]
    refine h.namespace_bind (fun ns localPath hns => ?_)
    refine h.parent_bind (h.namespaceOf_used hns) ?_ ?_
    · intro d v₁ kids₁ h₁ _
      dsimp only
      rw [if_pos rfl]
      exact h₁.kept_fail _
    · intro d name v₁ kids₁ h₁ _ hname hends
      dsimp only
      rw [if_neg hname]
      refine Eff.post_gets_bind ?_
      cases hops : opsOf drivers v₁ (v₁.dentries d).node with
      | none => exact h₁.kept_fail _
      | some found =>
          obtain ⟨dir, ops⟩ := found
          dsimp only
          cases hunlink : ops.unlink with
          | none => exact h₁.kept_fail _
          | some unlink =>
              refine h₁.callDriver_bind (fun u drv hok => ?_)
              have h₂ := h₁.withDrv drv
              refine Eff.post_bind_ok (h₂.tree.findChild_run d name) ?_
              dsimp only
              cases hchild : cachedChild v₁.dentries d name with
              | none => exact ⟨kids₁, h₂⟩
              | some t =>
                  have ht := h₁.tree.cachedChild_mem hchild
                  have hrel : Releasable v₁ t := by
                    rcases hends.2 with ⟨rfl, hnamed⟩ | ⟨_, hnone⟩
                    · refine hsafe t ?_ ⟨d, dir, ops, unlink, h₁.tree.parent d t ht, hops, hunlink, ?_⟩
                      · rw [namedDentry, hns]
                        exact hnamed t hchild
                      · rw [h₁.tree.cachedChild_name hchild, hok]
                    · rw [hnone] at ht
                      cases ht
                  refine Eff.post_mono (h₂.dropDentry_post ht hrel) ?_
                  rintro r v' ⟨_, h', _⟩
                  exact ⟨_, h'⟩

/-- The walk to the parents does not miss a dentry that it passes. -/
theorem Above.isAncestor_ne {ds : Nat → Dentry} {t d : Nat} (h : Above ds t d) (fuel : Nat) :
    isAncestor ds t fuel (some d) ≠ .ok false := by
  induction h generalizing fuel with
  | self =>
      cases fuel with
      | zero => exact nofun
      | succ fuel =>
          rw [isAncestor, if_pos rfl]
          exact nofun
  | @step p d hparent _ ih =>
      cases fuel with
      | zero => exact nofun
      | succ fuel =>
          rw [isAncestor]
          split
          next => exact nofun
          next =>
            rw [hparent]
            exact ih fuel

/-- A rename goes on after the check for cycles only if the moved dentry is neither the new parent
nor above it. -/
theorem checkNoCycle_run (moved : Option Nat) (newParent : Nat) (v : VfsState σ) :
    (∃ stop, checkNoCycle moved newParent v = (.error stop, v)) ∨
      (checkNoCycle moved newParent v = (.ok (), v) ∧
        ∀ d, moved = some d → ¬Above v.dentries d newParent) := by
  cases moved with
  | none => exact Or.inr ⟨rfl, nofun⟩
  | some d =>
      unfold checkNoCycle
      simp only [Eff.gets_bind_run]
      cases hwalk : isAncestor v.dentries d vfsMaxDentries (some newParent) with
      | error stop => exact Or.inl ⟨stop, rfl⟩
      | ok found =>
          cases found with
          | true => exact Or.inl ⟨_, rfl⟩
          | false =>
              refine Or.inr ⟨rfl, ?_⟩
              rintro d' heq habove
              cases heq
              exact habove.isAncestor_ne vfsMaxDentries hwalk

/-- The dentry that a rename moves was cached before the call: what the resolution of the new path
has entered is above the new directory. -/
theorem Sound.rename_source {v₁ v₂ : VfsState σ} {ns p q t : Nat} {oldLocal newLocal : List UInt8}
    {oldName newName : Name} (h : Sound v kids) (hns : (v.namespaces ns).inUse)
    (hold : resolveParentNs drivers ns oldLocal v = (.ok (p, oldName), v₁)) (hOldName : oldName ≠ [])
    (hnew : resolveParentNs drivers ns newLocal v₁ = (.ok (q, newName), v₂)) (hNewName : newName ≠ [])
    (ht : cachedChild v₂.dentries p oldName = some t) (hno : ¬Above v₂.dentries t q) :
    namedIn v ns oldLocal = some t ∧
      (cachedChild v₂.dentries q newName = some t → namedIn v ns newLocal = some t) := by
  have hpost : Eff.Post (resolveParentNs drivers ns oldLocal) v _ :=
    h.resolveParent_post hns oldLocal
  rw [Eff.Post, hold] at hpost
  obtain ⟨kids₁, h₁, hgrows₁, hends₁⟩ := hpost
  have hns₁ : (v₁.namespaces ns).inUse := by
    rw [hgrows₁.namespaces]
    exact hns
  have hpost₂ : Eff.Post (resolveParentNs drivers ns newLocal) v₁ _ :=
    h₁.resolveParent_post hns₁ newLocal
  rw [Eff.Post, hnew] at hpost₂
  obtain ⟨kids₂, h₂, hgrows₂, hends₂⟩ := hpost₂
  have hmem := h₂.tree.cachedChild_mem ht
  have hused₂ := (h₂.tree.used p t hmem).2
  have hused₁ : (v₁.dentries t).inUse := by
    by_contra hfree
    rw [Bool.not_eq_true] at hfree
    exact hno (h₁.resolveParent_above hns₁ hnew hfree hused₂)
  have hchild₁ := hgrows₂.cachedChild_back h₁ h₂ hused₁ ht
  rcases (hends₁ p oldName rfl hOldName).2 with ⟨rfl, hcached⟩ | ⟨-, hnone⟩
  · refine ⟨hcached t hchild₁, fun hq => ?_⟩
    rcases (hends₂ q newName rfl hNewName).2 with ⟨rfl, hcached₂⟩ | ⟨-, hnone⟩
    · exact hcached₂ t hq
    · have hkid := h₂.tree.cachedChild_mem hq
      rw [hnone] at hkid
      cases hkid
  · have hkid := h₁.tree.cachedChild_mem hchild₁
    rw [hnone] at hkid
    cases hkid

/-- The cache update of {lit}`vfs_rename`. -/
theorem Sound.renameCache_post {oldParent newParent : Nat} (h : Sound v kids) (newName : Name)
    {existingOld existingNew : Option Nat} (hnew : (v.dentries newParent).inUse)
    (hold : ∀ d, existingOld = some d → d ∈ kids oldParent ∧ d ≠ newParent)
    (hdrop : ∀ t, existingNew = some t → t ∈ kids newParent ∧ Releasable v t)
    (hne : ∀ t, existingNew = some t → existingOld ≠ some t) :
    Eff.Post (do
      match existingNew with
      | some t => dropDentry newParent t
      | none => pure ()
      match existingOld with
      | some d => moveDentry oldParent newParent d newName
      | none => pure ()) v (fun _ v' => Kept v') := by
  have hmove : ∀ (v₁ : VfsState σ) kids₁, Sound v₁ kids₁ → (∀ e x, x ∈ kids₁ e → x ∈ kids e) →
      (∀ d, existingOld = some d → (v₁.dentries d).inUse) → (v₁.dentries newParent).inUse →
      Eff.Post (match existingOld with
        | some d => moveDentry oldParent newParent d newName
        | none => pure ()) v₁ (fun _ v' => Kept v') := by
    intro v₁ kids₁ h₁ hsub hused hnew₁
    cases existingOld with
    | none => exact ⟨kids₁, h₁⟩
    | some d =>
        obtain ⟨hd, hdn⟩ := hold d rfl
        refine h₁.moveDentry_post newName (fun e he => ?_) (hused d rfl) hnew₁ hdn
        exact h.tree.parent_unique (hsub e d he) hd
  cases existingNew with
  | none =>
      exact hmove v kids h (fun _ _ hx => hx) (fun d hd => (h.tree.used _ d (hold d hd).1).2) hnew
  | some t =>
      obtain ⟨ht, hrel⟩ := hdrop t rfl
      refine Eff.post_bind (h.dropDentry_post ht hrel) ?_ ?_
      · rintro e v₁ ⟨hcon, _⟩
        cases hcon
      · rintro _ v₁ ⟨_, h₁, hused⟩
        refine hmove v₁ _ h₁ (fun _ _ hx => mem_of_mem_dropped hx) (fun d hd => ?_) ?_
        · have hdt : d ≠ t := by
            rintro rfl
            exact hne d rfl hd
          rw [hused d hdt]
          exact (h.tree.used _ d (hold d hd).1).2
        · have hnt : newParent ≠ t := by
            rintro rfl
            exact h.tree.irrefl newParent ht
          rw [hused newParent hnt]
          exact hnew

/-- {lit}`vfs_rename`, of two paths that do not name one dentry and the second of which
names none that has to stay. -/
theorem Sound.vfsRename_post (h : Sound v kids) {oldBuffer newBuffer oldPath newPath : List UInt8}
    (hsafe : ∀ ns oldLocal newLocal t, namespaceOf v oldBuffer oldPath = some (ns, oldLocal) →
      namespaceOf v newBuffer newPath = some (ns, newLocal) → namedIn v ns newLocal = some t →
      Releasable v t ∧ namedIn v ns oldLocal ≠ some t) :
    Eff.Post (vfsRename drivers oldBuffer newBuffer oldPath newPath) v (fun _ v' => Kept v') := by
  unfold vfsRename
  by_cases hempty : oldPath = [] ∨ newPath = []
  · rw [if_pos hempty]
    exact h.kept_fail _
  rw [if_neg hempty]
  refine h.namespace_bind (fun oldNs oldLocal hold => h.namespace_bind (fun ns newLocal hnew => ?_))
  dsimp only
  by_cases hns : oldNs = ns
  swap
  · rw [if_pos hns]
    exact h.kept_fail _
  subst hns
  rw [if_neg (by simp)]
  have hused := h.namespaceOf_used hold
  refine h.parent_bind hused ?_ ?_
  · -- the old path has no last component: the call fails once the new one is resolved
    intro d v₁ kids₁ h₁ hgrows
    dsimp only
    refine h₁.parent_bind (by rw [hgrows.namespaces]; exact hused) ?_ ?_
    · intro d' v₂ kids₂ h₂ _
      dsimp only
      rw [if_pos (Or.inl rfl)]
      exact h₂.kept_fail _
    · intro d' name v₂ kids₂ h₂ _ _ _
      dsimp only
      rw [if_pos (Or.inl rfl)]
      exact h₂.kept_fail _
  intro oldParent oldName v₁ kids₁ h₁ hgrows₁ hOldName hends₁
  dsimp only
  refine h₁.parent_bind (by rw [hgrows₁.namespaces]; exact hused) ?_ ?_
  · intro d' v₂ kids₂ h₂ _
    dsimp only
    rw [if_pos (Or.inr rfl)]
    exact h₂.kept_fail _
  intro newParent newName v₂ kids₂ h₂ hgrows₂ hNewName hends₂
  dsimp only
  rw [if_neg (by simp [hOldName, hNewName])]
  refine Eff.post_gets_bind ?_
  split
  next => exact h₂.kept_fail _
  next =>
    split
    next => exact h₂.kept_fail _
    next rename _ =>
      refine Eff.post_bind_ok (h₂.tree.findChild_run oldParent oldName) ?_
      rcases checkNoCycle_run (cachedChild v₂.dentries oldParent oldName) newParent v₂ with
        ⟨stop, hfail⟩ | ⟨hpass, hnoCycle⟩
      · exact Eff.post_bind_error hfail ⟨kids₂, h₂⟩
      refine Eff.post_bind_ok hpass (Eff.post_gets_bind ?_)
      refine h₂.callDriver_bind (fun u drv _ => ?_)
      have h₃ := h₂.withDrv drv
      refine Eff.post_bind_ok (h₃.tree.findChild_run newParent newName) ?_
      have hdrop : ∀ t, cachedChild v₂.dentries newParent newName = some t →
          Releasable v₂ t ∧ cachedChild v₂.dentries oldParent oldName ≠ some t := by
        intro t ht
        have htmem := h₂.tree.cachedChild_mem ht
        -- the new directory has a child, so resolving it created nothing
        obtain ⟨rfl, hnamed₁⟩ : v₂ = v₁ ∧ namedIn v₁ oldNs newLocal = some t := by
          rcases hends₂.2 with ⟨hsame, hcached⟩ | ⟨_, hnone⟩
          · exact ⟨hsame, hcached t (hsame ▸ ht)⟩
          · rw [hnone] at htmem
            cases htmem
        have hkids : ∀ x y, x ∈ kids₂ y → x ∈ kids₁ y := fun x y hx =>
          hgrows₂.kids_old (h₂.tree.used y x hx).2 hx
        by_cases htold : (v.dentries t).inUse
        · have hnamed := hgrows₁.namedIn_back h h₁ htold hnamed₁
          obtain ⟨hrel, hdiff⟩ := hsafe oldNs oldLocal newLocal t hold hnew hnamed
          refine ⟨⟨fun hroot => hrel.1 (hgrows₁.isRoot.mp hroot), fun r hr hparent => ?_⟩, ?_⟩
          · have hr' := hgrows₁.isRoot.mp hr
            obtain ⟨f, hf⟩ := hgrows₁.old r (h.root_used r hr')
            rw [hf] at hparent ⊢
            exact hrel.2 r hr' hparent
          · intro hcon
            rcases hends₁.2 with ⟨hsame, hcached⟩ | ⟨_, hnone⟩
            · exact hdiff (hcached t (hsame ▸ hcon))
            · have hmem := hkids t oldParent (h₂.tree.cachedChild_mem hcon)
              rw [hnone] at hmem
              cases hmem
        · -- a dentry that resolving the old path created
          rw [Bool.not_eq_true] at htold
          refine ⟨h.releasable_new hgrows₁ htold, fun hcon => ?_⟩
          have hmem := hkids t oldParent (h₂.tree.cachedChild_mem hcon)
          rcases hends₁.2 with ⟨hsame, _⟩ | ⟨_, hnone⟩
          · subst hsame
            have hused₂ := (h₁.tree.used oldParent t hmem).2
            rw [htold] at hused₂
            cases hused₂
          · rw [hnone] at hmem
            cases hmem
      refine h₃.renameCache_post newName (h₂.placed_used hends₂.1) ?_ ?_ ?_
      · intro d hd
        refine ⟨h₂.tree.cachedChild_mem hd, ?_⟩
        rintro rfl
        exact hnoCycle d hd Above.self
      · intro t ht
        exact ⟨h₂.tree.cachedChild_mem ht, (hdrop t ht).1⟩
      · intro t ht
        exact (hdrop t ht).2

/-! ## Runs -/

/-- A call of the virtual file system, or what drivers and their callers do between
the calls.  The buffers are the stack contents that the path parser finds. -/
inductive Call (σ : Type)
  | registerNamespace (buffer : List UInt8) (name : Name) (source : List UInt8)
  | mount (buffer path : List UInt8) (fsRoot : Nat)
  | unmount (buffer path : List UInt8)
  | openFile (buffer path : List UInt8) (flags : Nat)
  | create (buffer path : List UInt8) (mode : Nat)
  | mkdir (buffer path : List UInt8) (mode : Nat)
  | unlink (buffer path : List UInt8)
  | rename (oldBuffer newBuffer oldPath newPath : List UInt8)
  | readdir (buffer path : List UInt8) (index nameMax : Nat)
  | other (f : Drivers σ → Drivers σ)

/-- The state that a call leaves. -/
def Call.exec (drivers : Nat → VfsOps σ) (v : VfsState σ) : Call σ → VfsState σ
  | registerNamespace buffer name source => (vfsRegisterNamespace drivers buffer name source v).2
  | mount buffer path fsRoot => (vfsMount drivers buffer path fsRoot v).2
  | unmount buffer path => (vfsUnmount drivers buffer path v).2
  | openFile buffer path flags => (vfsOpen drivers buffer path flags v).2
  | create buffer path mode => (vfsCreate drivers buffer path mode v).2
  | mkdir buffer path mode => (vfsMkdir drivers buffer path mode v).2
  | unlink buffer path => (vfsUnlink drivers buffer path v).2
  | rename oldBuffer newBuffer oldPath newPath =>
      (vfsRename drivers oldBuffer newBuffer oldPath newPath v).2
  | readdir buffer path index nameMax => (vfsReaddir drivers buffer path index nameMax v).2
  | other f => { v with drv := f v.drv }

/-- A call that frees no dentry which something else still names.  Only an unmount, an
unlink and a rename free dentries: the mount point, the cached dentry of a file that the
driver has removed, and the dentry that the new path of a rename names in the cache. -/
def Call.Safe (drivers : Nat → VfsOps σ) (v : VfsState σ) : Call σ → Prop
  | unmount buffer path => ∀ ns localPath d, namespaceOf v buffer path = some (ns, localPath) →
      isRootPath localPath = false → namedDentry v buffer path = some d →
      (v.dentries d).node.isSome → (v.dentries d).parent.isSome → Releasable v d
  | unlink buffer path => ∀ d, namedDentry v buffer path = some d → UnlinkAccepted drivers v d →
      Releasable v d
  | rename oldBuffer newBuffer oldPath newPath => ∀ ns oldLocal newLocal t,
      namespaceOf v oldBuffer oldPath = some (ns, oldLocal) →
      namespaceOf v newBuffer newPath = some (ns, newLocal) → namedIn v ns newLocal = some t →
      Releasable v t ∧ namedIn v ns oldLocal ≠ some t
  | _ => True

/-- The state at boot, before {lit}`vfs_init`. -/
def boot (drv : Drivers σ) : VfsState σ where
  dentries := fun _ => Dentry.zero
  namespaces := fun _ => Namespace.zero
  defaultNamespace := none
  drv := drv

/-- The states reached from {lit}`vfs_init` by calls that meet a condition on the state
before them. -/
inductive Run (drivers : Nat → VfsOps σ) (ok : VfsState σ → Call σ → Prop) : VfsState σ → Prop
  | init (drv : Drivers σ) : Run drivers ok (vfsInit (boot drv)).2
  | step {v : VfsState σ} (c : Call σ) : Run drivers ok v → ok v c → Run drivers ok (c.exec drivers v)

/-- A dentry that is reachable from the namespaces through child and sibling links. -/
inductive Reach (v : VfsState σ) : Nat → Prop
  | root {r : Nat} : IsRoot v r → Reach v r
  | child {d c : Nat} : Reach v d → (v.dentries d).firstChild = some c → Reach v c
  | sibling {d c : Nat} : Reach v d → (v.dentries d).nextSibling = some c → Reach v c

/-- The tree that the namespaces reach is well formed: its dentries are in use, each one
that is no root is in the child list of its parent, once, and in no other, and searching
any child list ends. -/
structure WellFormed (v : VfsState σ) : Prop where
  used : ∀ d, Reach v d → (v.dentries d).inUse
  placed : ∃ kids : Nat → List Nat,
    (∀ d, Linked (fun c => (v.dentries c).nextSibling) (v.dentries d).firstChild (kids d)) ∧
    ∀ c, Reach v c → ¬ IsRoot v c → ∃ p, (v.dentries c).parent = some p ∧
      (kids p).count c = 1 ∧ ∀ d, d ≠ p → c ∉ kids d
  search : ∀ d name, ∃ child, findChild d name v = (.ok child, v)

/-- The dentry table is empty at boot. -/
theorem boot_tree : Tree (fun _ => Dentry.zero) (fun _ => []) where
  linked := fun _ => rfl
  used := fun _ _ h => by cases h
  parent := fun _ _ h => by cases h
  irrefl := fun _ h => by cases h
  bound := fun _ h => by cases h

/-- {lit}`vfs_init`. -/
theorem vfsInit_sound (drv : Drivers σ) : Sound (vfsInit (boot drv)).2 (fun _ => []) := by
  have hboot : Sound (boot drv) (fun _ => []) := by
    refine ⟨boot_tree, ?_, ?_, ?_⟩
    · rintro r ⟨i, hi, _⟩
      cases hi
    · rintro r ⟨i, hi, _⟩
      cases hi
    · intro i hi
      cases hi
  have hfirst := hboot.setFree (i := 0) (by decide) rfl (e := freshDentry [] none none) rfl
  have hns := hfirst.newNamespace [] (i := 0) (d := 0) rfl rfl rfl
  refine ⟨hns.tree, hns.root_used, hns.seated, ?_⟩
  intro i hi
  have hzero : i = 0 := (Option.some.inj hi).symm
  subst hzero
  rfl

/-- A safe call keeps the invariant. -/
theorem Sound.exec_kept (h : Sound v kids) (c : Call σ) (hsafe : c.Safe drivers v) :
    Kept (c.exec drivers v) := by
  cases c with
  | registerNamespace buffer name source => exact h.vfsRegisterNamespace_post buffer name source
  | mount buffer path fsRoot => exact h.vfsMount_post buffer path fsRoot
  | unmount buffer path => exact h.vfsUnmount_post hsafe
  | openFile buffer path flags => exact h.vfsOpen_post buffer path flags
  | create buffer path mode => exact h.makeEntry_post VfsOps.create buffer path mode
  | mkdir buffer path mode => exact h.makeEntry_post VfsOps.mkdir buffer path mode
  | unlink buffer path => exact h.vfsUnlink_post hsafe
  | rename oldBuffer newBuffer oldPath newPath => exact h.vfsRename_post hsafe
  | readdir buffer path index nameMax => exact h.vfsReaddir_post buffer path index nameMax
  | other f => exact ⟨kids, h.withDrv _⟩

theorem Run.kept (h : Run drivers (fun v c => c.Safe drivers v) v) : Kept v := by
  induction h with
  | init drv => exact ⟨_, vfsInit_sound drv⟩
  | step c _ hsafe ih =>
      obtain ⟨kids, hsound⟩ := ih
      exact hsound.exec_kept c hsafe

/-- What is reachable is a root or a child. -/
theorem Sound.reach_placed (h : Sound v kids) {d : Nat} (hd : Reach v d) : Placed v kids d := by
  induction hd with
  | root hr => exact Or.inl hr
  | @child e c _ hfirst _ =>
      have hlinked := h.tree.linked e
      rw [hfirst] at hlinked
      refine Or.inr ⟨e, ?_⟩
      exact List.mem_of_mem_head? hlinked.head_eq.symm
  | @sibling e c _ hnext ih =>
      -- a root with a sibling link is a child, and the link stays in the list
      have hkid : ∃ p, e ∈ kids p := by
        rcases ih with hroot | hkid
        · rcases h.seated e hroot with hkid | hnone
          · exact hkid
          · rw [hnone] at hnext
            cases hnext
        · exact hkid
      obtain ⟨p, hp⟩ := hkid
      obtain ⟨l₁, l₂, hsplit⟩ := List.append_of_mem hp
      have hlinked := h.tree.linked p
      rw [hsplit] at hlinked
      have htail := hlinked.tail_of_append
      rw [hnext] at htail
      refine Or.inr ⟨p, ?_⟩
      rw [hsplit]
      exact List.mem_append_right _ (List.mem_cons_of_mem _
        (List.mem_of_mem_head? htail.head_eq.symm))

theorem Sound.wellFormed (h : Sound v kids) : WellFormed v where
  used := fun _ hd => h.placed_used (h.reach_placed hd)
  placed := by
    refine ⟨kids, h.tree.linked, fun c hc hroot => ?_⟩
    rcases h.reach_placed hc with hcon | ⟨p, hp⟩
    · exact absurd hcon hroot
    · refine ⟨p, h.tree.parent p c hp, ?_, fun d hd hmem => hd (h.tree.parent_unique hmem hp)⟩
      exact List.count_eq_one_of_mem (h.tree.linked p).nodup hp
  search := fun d name => ⟨_, h.tree.findChild_run d name⟩

/-- The dentry tree is well formed after every run of safe calls. -/
theorem tree_wellFormed (drivers : Nat → VfsOps σ) (v : VfsState σ)
    (hrun : Run drivers (fun v c => c.Safe drivers v) v) : WellFormed v := by
  obtain ⟨kids, hsound⟩ := hrun.kept
  exact hsound.wellFormed

/-- A driver without operations. -/
def noOps : VfsOps Unit where
  lookup := none
  openFile := none
  read := none
  write := none
  close := none
  stat := none
  create := none
  mkdir := none
  unlink := none
  readdir := none
  rename := none

/-- A file system is mounted at {lit}`a:/m`, and the namespace {lit}`b` is registered
for it. -/
def aliased : VfsState Unit :=
  (Call.registerNamespace [] [98] [97, 58, 47, 109]).exec (fun _ => noOps)
    ((Call.mount [] [97, 58, 47, 109] 0).exec (fun _ => noOps)
      (vfsInit (boot { vnodes := fun _ => Vnode.zero, fs := () })).2)

/-- The mount at the root of {lit}`a` is undone; the tree stays well formed. -/
theorem tree_wellFormed_root_unmount :
    WellFormed ((Call.unmount [] [97, 58, 47]).exec (fun _ => noOps) aliased) := by
  refine tree_wellFormed (fun _ => noOps) _ (Run.step _ (Run.step _ (Run.step _
    (Run.init _) trivial) trivial) ?_)
  intro ns localPath d hns hroot
  have heq : namespaceOf aliased [] [97, 58, 47] = some (1, [47]) := by decide
  cases heq.symm.trans hns
  cases hroot

/-- Undoing the mount at {lit}`a:/m` frees the dentry that the namespace {lit}`b` has as
its root. -/
theorem unmount_frees_namespace_root :
    Run (fun _ => noOps) (fun _ _ => True)
        ((Call.unmount [] [97, 58, 47, 109]).exec (fun _ => noOps) aliased) ∧
      ¬ WellFormed ((Call.unmount [] [97, 58, 47, 109]).exec (fun _ => noOps) aliased) := by
  refine ⟨Run.step _ (Run.step _ (Run.step _ (Run.init _) trivial) trivial) trivial, ?_⟩
  intro h
  have hused := h.used _ (Reach.root ⟨2, by decide, Or.inl rfl⟩)
  revert hused
  decide

end Vfs
end Nyxis
