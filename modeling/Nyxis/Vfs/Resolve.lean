import Nyxis.Vfs.Tree
import Mathlib.Data.List.Find

/-!
# Path resolution and the dentry tree

Resolving a path adds dentries to the tree and changes nothing else in it.  Either
every component was cached, and then nothing at all happened, or the dentry it
ends at is new.

Main results:

- Definition {lit}`Sound`: the tree together with the namespaces that name dentries
  of it.
- Definition {lit}`namedDentry`: the dentry that a path names in the cache.
- Theorems {lit}`Sound.resolvePath_post` and {lit}`Sound.resolveParent_post`: what
  the two resolvers do.
-/

namespace Nyxis
namespace Vfs

variable {σ : Type} {v v' : VfsState σ} {kids kids' : Nat → List Nat}
  {drivers : Nat → VfsOps σ} {cur : Nat}

/-- A dentry that a namespace names as its root or its current directory. -/
def IsRoot (v : VfsState σ) (r : Nat) : Prop :=
  ∃ i, (v.namespaces i).inUse ∧ (r = (v.namespaces i).root ∨ r = (v.namespaces i).cwd)

/-- The dentry tree and the namespaces over it.  A root that has lost its parent has
no sibling link left. -/
structure Sound (v : VfsState σ) (kids : Nat → List Nat) : Prop where
  tree : Tree v.dentries kids
  root_used : ∀ r, IsRoot v r → (v.dentries r).inUse
  seated : ∀ r, IsRoot v r → (∃ d, r ∈ kids d) ∨ (v.dentries r).nextSibling = none
  default_used : ∀ i, v.defaultNamespace = some i → (v.namespaces i).inUse

/-- A root or a child: a dentry that resolution can reach. -/
def Placed (v : VfsState σ) (kids : Nat → List Nat) (d : Nat) : Prop :=
  IsRoot v d ∨ ∃ e, d ∈ kids e

theorem Sound.placed_used (h : Sound v kids) {d : Nat} (hd : Placed v kids d) :
    (v.dentries d).inUse := by
  rcases hd with hroot | ⟨e, he⟩
  · exact h.root_used d hroot
  · exact (h.tree.used e d he).2

/-- What drivers do leaves the tree alone. -/
theorem Sound.withDrv (h : Sound v kids) (drv : Drivers σ) : Sound { v with drv := drv } kids :=
  ⟨h.tree, h.root_used, h.seated, h.default_used⟩

/-- New dentries have been added, and the old ones have kept their place. -/
structure Grows (v : VfsState σ) (kids : Nat → List Nat) (v' : VfsState σ)
    (kids' : Nat → List Nat) : Prop where
  namespaces : v'.namespaces = v.namespaces
  default_eq : v'.defaultNamespace = v.defaultNamespace
  old : ∀ d, (v.dentries d).inUse → ∃ f, v'.dentries d = { v.dentries d with firstChild := f }
  extends_kids : ∀ d, ∃ new, kids' d = new ++ kids d ∧ ∀ c ∈ new, (v.dentries c).inUse = false

theorem Grows.withDrv (drv : Drivers σ) : Grows v kids { v with drv := drv } kids where
  namespaces := rfl
  default_eq := rfl
  old := fun d _ => ⟨(v.dentries d).firstChild, rfl⟩
  extends_kids := fun _ => ⟨[], rfl, fun _ h => by cases h⟩

theorem Grows.refl : Grows v kids v kids :=
  Grows.withDrv v.drv

theorem Grows.used (h : Grows v kids v' kids') {d : Nat} (hd : (v.dentries d).inUse) :
    (v'.dentries d).inUse := by
  obtain ⟨f, hf⟩ := h.old d hd
  rw [hf]
  exact hd

theorem Grows.kids_sub (h : Grows v kids v' kids') {d c : Nat} (hc : c ∈ kids d) :
    c ∈ kids' d := by
  obtain ⟨new, heq, _⟩ := h.extends_kids d
  rw [heq]
  exact List.mem_append_right new hc

theorem Grows.kids_old (h : Grows v kids v' kids') {d c : Nat} (hused : (v.dentries c).inUse)
    (hc : c ∈ kids' d) : c ∈ kids d := by
  obtain ⟨new, heq, hnew⟩ := h.extends_kids d
  rw [heq, List.mem_append] at hc
  rcases hc with hc | hc
  · rw [hnew c hc] at hused
    cases hused
  · exact hc

theorem Grows.isRoot (h : Grows v kids v' kids') {r : Nat} : IsRoot v' r ↔ IsRoot v r := by
  unfold IsRoot
  rw [h.namespaces]

theorem Grows.trans {v₁ v₂ v₃ : VfsState σ} {k₁ k₂ k₃ : Nat → List Nat}
    (h₁ : Grows v₁ k₁ v₂ k₂) (h₂ : Grows v₂ k₂ v₃ k₃) : Grows v₁ k₁ v₃ k₃ where
  namespaces := h₂.namespaces.trans h₁.namespaces
  default_eq := h₂.default_eq.trans h₁.default_eq
  old := by
    intro d hd
    obtain ⟨f, hf⟩ := h₁.old d hd
    obtain ⟨g, hg⟩ := h₂.old d (h₁.used hd)
    exact ⟨g, by rw [hg, hf]⟩
  extends_kids := by
    intro d
    obtain ⟨new₁, heq₁, hnew₁⟩ := h₁.extends_kids d
    obtain ⟨new₂, heq₂, hnew₂⟩ := h₂.extends_kids d
    refine ⟨new₂ ++ new₁, by rw [heq₂, heq₁, List.append_assoc], fun c hc => ?_⟩
    rcases List.mem_append.mp hc with hc | hc
    · by_contra hused
      rw [Bool.not_eq_false] at hused
      have hused₂ := h₁.used hused
      rw [hnew₂ c hc] at hused₂
      cases hused₂
    · exact hnew₁ c hc

/-- Entering a new child into the cache. -/
theorem Sound.enter (h : Sound v kids) {i : Nat} (hi : i < vfsMaxDentries)
    (hfree : (v.dentries i).inUse = false) (hcur : (v.dentries cur).inUse) (name : Name)
    (node : Option Nat) :
    Sound { v with dentries := attached (Function.update v.dentries i
        (freshDentry name node (some cur))) cur i } (Function.update kids cur (i :: kids cur)) ∧
      Grows v kids { v with dentries := attached (Function.update v.dentries i
        (freshDentry name node (some cur))) cur i } (Function.update kids cur (i :: kids cur)) ∧
      Function.update kids cur (i :: kids cur) i = [] := by
  have hne : i ≠ cur := by
    rintro rfl
    rw [hfree] at hcur
    cases hcur
  have hout := h.tree.not_kid_of_free hfree
  have htree := (h.tree.setFree hi hfree (e := freshDentry name node (some cur)) rfl).attach
    (by rwa [Function.update_of_ne (Ne.symm hne)]) (by rw [Function.update_self]; rfl)
    (by rw [Function.update_self]; rfl) hne hout
  have hold : ∀ d, (v.dentries d).inUse → ∃ f, attached (Function.update v.dentries i
      (freshDentry name node (some cur))) cur i d = { v.dentries d with firstChild := f } := by
    intro d hd
    have hdi : d ≠ i := by
      rintro rfl
      rw [hfree] at hd
      cases hd
    by_cases hdc : d = cur
    · subst hdc
      exact ⟨some i, by simp [attached, hdi]⟩
    · exact ⟨(v.dentries d).firstChild, by simp [attached, hdi, hdc]⟩
  have hsub : ∀ d c, c ∈ kids d → c ∈ Function.update kids cur (i :: kids cur) d := by
    intro d c hc
    by_cases hd : d = cur
    · subst hd
      rw [Function.update_self]
      exact List.mem_cons_of_mem i hc
    · rwa [Function.update_of_ne hd]
  refine ⟨⟨htree, ?_, ?_, h.default_used⟩, ⟨rfl, rfl, hold, ?_⟩, ?_⟩
  · intro r hr
    obtain ⟨f, hf⟩ := hold r (h.root_used r hr)
    simp only [hf]
    exact h.root_used r hr
  · intro r hr
    rcases h.seated r hr with ⟨d, hd⟩ | hnext
    · exact Or.inl ⟨d, hsub d r hd⟩
    · obtain ⟨f, hf⟩ := hold r (h.root_used r hr)
      refine Or.inr ?_
      simp only [hf]
      exact hnext
  · intro d
    by_cases hd : d = cur
    · subst hd
      refine ⟨[i], by rw [Function.update_self]; rfl, fun c hc => ?_⟩
      rw [List.mem_singleton] at hc
      rw [hc]
      exact hfree
    · exact ⟨[], by rw [Function.update_of_ne hd]; rfl, fun c hc => by cases hc⟩
  · rw [Function.update_of_ne hne]
    exact h.tree.kids_free hfree

/-! ## One step -/

/-- The outcomes of one resolution step: a cached child and no effect, a new child
without children of its own, or an error. -/
theorem Sound.childStep_post (h : Sound v kids) (hcur : (v.dentries cur).inUse)
    (missing : Nstatus) (name : Name) :
    Eff.Post (childStep drivers missing cur name) v (fun r v' =>
      (∃ c, r = .ok c ∧ v' = v ∧ cachedChild v.dentries cur name = some c) ∨
      (∃ c kids', r = .ok c ∧ Sound v' kids' ∧ Grows v kids v' kids' ∧
        (v.dentries c).inUse = false ∧ c ∈ kids' cur ∧ kids' c = [] ∧
        ∀ x, x ≠ c → (v'.dentries x).inUse = (v.dentries x).inUse) ∨
      (∃ stop, r = .error stop ∧ Sound v' kids ∧ Grows v kids v' kids)) := by
  unfold childStep
  refine Eff.post_bind_ok (h.tree.findChild_run cur name) ?_
  cases hchild : cachedChild v.dentries cur name with
  | some c => exact Eff.post_of_eq rfl (Or.inl ⟨c, rfl, rfl, rfl⟩)
  | none =>
      have hfail : ∀ stop, (∃ c, (Except.error stop : Except Stop Nat) = .ok c ∧ v = v ∧
          none = some c) ∨ (∃ c kids', (Except.error stop : Except Stop Nat) = .ok c ∧
          Sound v kids' ∧ Grows v kids v kids' ∧ (v.dentries c).inUse = false ∧
          c ∈ kids' cur ∧ kids' c = [] ∧ ∀ x, x ≠ c → (v.dentries x).inUse = (v.dentries x).inUse) ∨
          (∃ stop', (Except.error stop : Except Stop Nat) =
          .error stop' ∧ Sound v kids ∧ Grows v kids v kids) :=
        fun stop => Or.inr (Or.inr ⟨stop, rfl, h, Grows.refl⟩)
      refine Eff.post_gets_bind ?_
      cases opsOf drivers v (v.dentries cur).node with
      | none => exact Eff.post_of_eq rfl (hfail _)
      | some ops =>
          obtain ⟨dir, ops⟩ := ops
          dsimp only
          cases ops.lookup with
          | none => exact Eff.post_of_eq rfl (hfail _)
          | some lookup =>
              cases hrun : lookup dir name v.drv with
              | mk r drv =>
                  have hcall : callDriver (lookup dir name) v = (r, { v with drv := drv }) := by
                    rw [callDriver, hrun]
                  cases r with
                  | error stop =>
                      exact Eff.post_bind_error hcall
                        (Or.inr (Or.inr ⟨stop, rfl, h.withDrv drv, Grows.withDrv drv⟩))
                  | ok found =>
                      refine Eff.post_bind_ok hcall ?_
                      cases found with
                      | none =>
                          exact Eff.post_of_eq rfl
                            (Or.inr (Or.inr ⟨_, rfl, h.withDrv drv, Grows.withDrv drv⟩))
                      | some vnode =>
                          rcases allocDentry_run name (some vnode) (some cur)
                            { v with drv := drv } with hnone | ⟨i, hi, hfree, hsome⟩
                          · refine Eff.post_bind_ok hnone ?_
                            exact Eff.post_of_eq rfl
                              (Or.inr (Or.inr ⟨_, rfl, h.withDrv _, Grows.withDrv _⟩))
                          · refine Eff.post_bind_ok hsome ?_
                            obtain ⟨hsound, hgrows, hempty⟩ :=
                              h.enter hi hfree hcur name (some vnode)
                            refine Eff.post_of_eq rfl (Or.inr (Or.inl ⟨i, _, rfl,
                              hsound.withDrv drv, hgrows.trans (Grows.withDrv drv), hfree, ?_,
                              hempty, fun x hx => ?_⟩))
                            · rw [Function.update_self]
                              exact List.mem_cons_self ..
                            · refine (attached_inUse _ _ _ _).trans ?_
                              exact congrArg Dentry.inUse (Function.update_of_ne hx _ _)

/-! ## Whole paths -/

/-- The dentry that a cursor leads to through cached dentries. -/
def cachedLoop (ds : Nat → Dentry) : (fuel : Nat) → (current : Nat) → List UInt8 → Option Nat
  | 0, current, _ => some current
  | fuel + 1, current, cursor =>
      if cursor = [] then some current
      else
        match parseSegment cursor with
        | .error _ => none
        | .ok (name, rest) =>
            if name = [] then some current
            else
              match cachedChild ds current name with
              | none => none
              | some child => cachedLoop ds fuel child rest

/-- From a dentry without children only itself is cached. -/
theorem cachedLoop_of_no_kids {ds : Nat → Dentry} (h : Tree ds kids) (hcur : kids cur = [])
    {fuel d : Nat} {cursor : List UInt8} (hd : cachedLoop ds fuel cur cursor = some d) :
    d = cur := by
  cases fuel with
  | zero => exact (Option.some.inj hd).symm
  | succ fuel =>
      rw [cachedLoop] at hd
      split at hd
      next => exact (Option.some.inj hd).symm
      next =>
        split at hd
        next => cases hd
        next name rest _ =>
          split at hd
          next => exact (Option.some.inj hd).symm
          next =>
            have hnone : cachedChild ds cur name = none := by
              rw [h.cachedChild_eq, hcur, List.find?_nil]
            rw [hnone] at hd
            cases hd

/-- How a resolution that started in a state ends at a dentry: everything was cached
and nothing happened, or the dentry is new and has no children. -/
def EndsAt (v v' : VfsState σ) (kids' : Nat → List Nat) (cached : Prop) (d : Nat) : Prop :=
  Placed v' kids' d ∧
    ((v' = v ∧ cached) ∨ ((v.dentries d).inUse = false ∧ kids' d = []))

/-- A resolution that goes on from a new dentry ends at a new dentry: nothing is
cached below the one it goes on from. -/
theorem EndsAt.of_new {v₁ v₂ : VfsState σ} {kids₁ kids₂ : Nat → List Nat} {child d : Nat}
    {cached cached₁ : Prop} (h : EndsAt v₁ v₂ kids₂ cached₁ d) (hgrows : Grows v kids v₁ kids₁)
    (hnew : (v.dentries child).inUse = false) (hnone : kids₁ child = [])
    (hgrows₂ : Grows v₁ kids₁ v₂ kids₂) (hsound₂ : Sound v₂ kids₂) (hcached : cached₁ → d = child) :
    EndsAt v v₂ kids₂ cached d := by
  obtain ⟨hplaced, ⟨rfl, hloop⟩ | ⟨hfree, hd₂⟩⟩ := h
  · obtain rfl := hcached hloop
    refine ⟨hplaced, Or.inr ⟨hnew, ?_⟩⟩
    refine List.eq_nil_iff_forall_not_mem.mpr (fun x hx => ?_)
    have hx₁ := hgrows₂.kids_old (hsound₂.tree.used d x hx).2 hx
    rw [hnone] at hx₁
    cases hx₁
  · refine ⟨hplaced, Or.inr ⟨?_, hd₂⟩⟩
    by_contra hused
    rw [Bool.not_eq_false] at hused
    have hused₁ := hgrows.used hused
    rw [hfree] at hused₁
    cases hused₁

/-- The loop of {lit}`resolve_path_internal_ns`. -/
theorem Sound.resolveLoop_post (h : Sound v kids) (hcur : Placed v kids cur) (fuel : Nat)
    (cursor : List UInt8) :
    Eff.Post (resolveLoop drivers fuel cur cursor) v (fun r v' =>
      ∃ kids', Sound v' kids' ∧ Grows v kids v' kids' ∧ ∀ d, r = .ok d →
        EndsAt v v' kids' (cachedLoop v.dentries fuel cur cursor = some d) d) := by
  induction fuel generalizing v kids cur cursor with
  | zero =>
      refine Eff.post_of_eq rfl ⟨kids, h, Grows.refl, fun d hd => ?_⟩
      cases hd
      exact ⟨hcur, Or.inl ⟨rfl, rfl⟩⟩
  | succ fuel ih =>
      rw [resolveLoop]
      by_cases hempty : cursor = []
      · rw [if_pos hempty]
        refine Eff.post_of_eq rfl ⟨kids, h, Grows.refl, fun d hd => ?_⟩
        cases hd
        exact ⟨hcur, Or.inl ⟨rfl, by rw [cachedLoop, if_pos hempty]⟩⟩
      · rw [if_neg hempty]
        cases hparse : parseSegment cursor with
        | error e =>
            refine Eff.post_of_eq rfl ⟨kids, h, Grows.refl, fun d hd => ?_⟩
            cases hd
        | ok segment =>
            obtain ⟨name, rest⟩ := segment
            dsimp only
            by_cases hname : name = []
            · rw [if_pos hname]
              refine Eff.post_of_eq rfl ⟨kids, h, Grows.refl, fun d hd => ?_⟩
              cases hd
              refine ⟨hcur, Or.inl ⟨rfl, ?_⟩⟩
              rw [cachedLoop, if_neg hempty, hparse]
              exact if_pos hname
            · rw [if_neg hname]
              refine Eff.post_bind (h.childStep_post (h.placed_used hcur) _ name) ?_ ?_
              · rintro stop v₁ (⟨c, hcon, _⟩ | ⟨c, k, hcon, _⟩ | ⟨_, _, hsound, hgrows⟩)
                · cases hcon
                · cases hcon
                · exact ⟨kids, hsound, hgrows, fun d hd => by cases hd⟩
              · rintro child v₁ (⟨c, hok, rfl, hcached⟩ | ⟨c, kids₁, hok, hsound, hgrows, hnew,
                  hkid, hnone, _⟩ | ⟨_, hcon, _⟩)
                · cases hok
                  refine Eff.post_mono (ih h (Or.inr ⟨cur, h.tree.cachedChild_mem hcached⟩) rest) ?_
                  rintro r v₂ ⟨kids₂, hsound, hgrows, hends⟩
                  refine ⟨kids₂, hsound, hgrows, fun d hd => ?_⟩
                  obtain ⟨hplaced, hcase⟩ := hends d hd
                  refine ⟨hplaced, hcase.imp_left ?_⟩
                  rintro ⟨hsame, hloop⟩
                  refine ⟨hsame, ?_⟩
                  rw [cachedLoop, if_neg hempty, hparse]
                  dsimp only
                  rw [if_neg hname, hcached]
                  exact hloop
                · cases hok
                  refine Eff.post_mono (ih hsound (Or.inr ⟨cur, hkid⟩) rest) ?_
                  rintro r v₂ ⟨kids₂, hsound₂, hgrows₂, hends⟩
                  refine ⟨kids₂, hsound₂, hgrows.trans hgrows₂, fun d hd => ?_⟩
                  exact (hends d hd).of_new hgrows hnew hnone hgrows₂ hsound₂
                    (cachedLoop_of_no_kids hsound.tree hnone)
                · cases hcon

/-- The parent and the last component that a cursor leads to through cached
dentries. -/
def cachedParentLoop (ds : Nat → Dentry) :
    (fuel : Nat) → (current : Nat) → List UInt8 → Option (Nat × (Name ⊕ List UInt8))
  | 0, current, cursor => some (current, .inr cursor)
  | fuel + 1, current, cursor =>
      if cursor = [] then some (current, .inr cursor)
      else
        match parseSegment cursor with
        | .error _ => none
        | .ok (name, rest) =>
            if name = [] then some (current, .inr rest)
            else if skipSlashes rest = [] then some (current, .inl name)
            else
              match cachedChild ds current name with
              | none => none
              | some child => cachedParentLoop ds fuel child (skipSlashes rest)

/-- From a dentry without children only itself is a cached parent. -/
theorem cachedParentLoop_of_no_kids {ds : Nat → Dentry} (h : Tree ds kids)
    (hcur : kids cur = []) {fuel d : Nat} {cursor : List UInt8} {out : Name ⊕ List UInt8}
    (hd : cachedParentLoop ds fuel cur cursor = some (d, out)) : d = cur := by
  cases fuel with
  | zero =>
      rw [cachedParentLoop] at hd
      cases hd
      rfl
  | succ fuel =>
      rw [cachedParentLoop] at hd
      split at hd
      next =>
        cases hd
        rfl
      next =>
        split at hd
        next => cases hd
        next name rest _ =>
          split at hd
          next =>
            cases hd
            rfl
          next =>
            split at hd
            next =>
              cases hd
              rfl
            next =>
              have hnone : cachedChild ds cur name = none := by
                rw [h.cachedChild_eq, hcur, List.find?_nil]
              rw [hnone] at hd
              cases hd

/-- Behind a component the cursor is past the slashes. -/
theorem parseSegment_skipped {cursor rest : List UInt8} {name : Name}
    (h : parseSegment cursor = .ok (name, rest)) : skipSlashes rest = rest := by
  rw [parseSegment] at h
  split at h
  next =>
    cases h
    exact skipSlashes_idem cursor
  next =>
    dsimp only at h
    split at h
    next => cases h
    next =>
      cases h
      exact skipSlashes_idem _

/-- A cached child of the cached parent is the dentry that the whole path names. -/
theorem cachedLoop_of_parent {ds : Nat → Dentry} {fuel d t : Nat} {cursor : List UInt8}
    {name : Name} (hd : cachedParentLoop ds fuel cur cursor = some (d, .inl name))
    (ht : cachedChild ds d name = some t) : cachedLoop ds fuel cur cursor = some t := by
  induction fuel generalizing cur cursor with
  | zero =>
      rw [cachedParentLoop] at hd
      cases hd
  | succ fuel ih =>
      rw [cachedParentLoop] at hd
      rw [cachedLoop]
      by_cases hempty : cursor = []
      · rw [if_pos hempty] at hd
        cases hd
      · rw [if_neg hempty] at hd ⊢
        cases hparse : parseSegment cursor with
        | error e =>
            rw [hparse] at hd
            cases hd
        | ok segment =>
            obtain ⟨first, rest⟩ := segment
            rw [hparse] at hd
            dsimp only at hd ⊢
            by_cases hname : first = []
            · rw [if_pos hname] at hd
              cases hd
            · rw [if_neg hname] at hd ⊢
              rw [parseSegment_skipped hparse] at hd
              by_cases hlast : rest = []
              · rw [if_pos hlast] at hd
                cases hd
                rw [ht, hlast]
                cases fuel with
                | zero => rfl
                | succ fuel => exact if_pos rfl
              · rw [if_neg hlast] at hd
                cases hchild : cachedChild ds cur first with
                | none =>
                    rw [hchild] at hd
                    cases hd
                | some child =>
                    rw [hchild] at hd
                    exact ih hd

/-- The loop of {lit}`resolve_parent_ns`. -/
theorem Sound.parentLoop_post (h : Sound v kids) (hcur : Placed v kids cur) (fuel : Nat)
    (cursor : List UInt8) :
    Eff.Post (parentLoop drivers fuel cur cursor) v (fun r v' =>
      ∃ kids', Sound v' kids' ∧ Grows v kids v' kids' ∧ ∀ d out, r = .ok (d, out) →
        EndsAt v v' kids' (cachedParentLoop v.dentries fuel cur cursor = some (d, out)) d) := by
  induction fuel generalizing v kids cur cursor with
  | zero =>
      refine Eff.post_of_eq rfl ⟨kids, h, Grows.refl, fun d out hd => ?_⟩
      cases hd
      exact ⟨hcur, Or.inl ⟨rfl, rfl⟩⟩
  | succ fuel ih =>
      rw [parentLoop]
      by_cases hempty : cursor = []
      · rw [if_pos hempty]
        refine Eff.post_of_eq rfl ⟨kids, h, Grows.refl, fun d out hd => ?_⟩
        cases hd
        exact ⟨hcur, Or.inl ⟨rfl, by rw [cachedParentLoop, if_pos hempty]⟩⟩
      · rw [if_neg hempty]
        cases hparse : parseSegment cursor with
        | error e =>
            refine Eff.post_of_eq rfl ⟨kids, h, Grows.refl, fun d out hd => ?_⟩
            cases hd
        | ok segment =>
            obtain ⟨name, rest⟩ := segment
            dsimp only
            by_cases hname : name = []
            · rw [if_pos hname]
              refine Eff.post_of_eq rfl ⟨kids, h, Grows.refl, fun d out hd => ?_⟩
              cases hd
              refine ⟨hcur, Or.inl ⟨rfl, ?_⟩⟩
              rw [cachedParentLoop, if_neg hempty, hparse]
              exact if_pos hname
            · rw [if_neg hname]
              by_cases hlast : skipSlashes rest = []
              · rw [if_pos hlast]
                refine Eff.post_of_eq rfl ⟨kids, h, Grows.refl, fun d out hd => ?_⟩
                cases hd
                refine ⟨hcur, Or.inl ⟨rfl, ?_⟩⟩
                rw [cachedParentLoop, if_neg hempty, hparse]
                dsimp only
                rw [if_neg hname, if_pos hlast]
              · rw [if_neg hlast]
                refine Eff.post_bind (h.childStep_post (h.placed_used hcur) _ name) ?_ ?_
                · rintro stop v₁ (⟨c, hcon, _⟩ | ⟨c, k, hcon, _⟩ | ⟨_, _, hsound, hgrows⟩)
                  · cases hcon
                  · cases hcon
                  · exact ⟨kids, hsound, hgrows, fun d out hd => by cases hd⟩
                · rintro child v₁ (⟨c, hok, rfl, hcached⟩ | ⟨c, kids₁, hok, hsound, hgrows, hnew,
                    hkid, hnone, _⟩ | ⟨_, hcon, _⟩)
                  · cases hok
                    refine Eff.post_mono
                      (ih h (Or.inr ⟨cur, h.tree.cachedChild_mem hcached⟩) (skipSlashes rest)) ?_
                    rintro r v₂ ⟨kids₂, hsound, hgrows, hends⟩
                    refine ⟨kids₂, hsound, hgrows, fun d out hd => ?_⟩
                    obtain ⟨hplaced, hcase⟩ := hends d out hd
                    refine ⟨hplaced, hcase.imp_left ?_⟩
                    rintro ⟨hsame, hloop⟩
                    refine ⟨hsame, ?_⟩
                    rw [cachedParentLoop, if_neg hempty, hparse]
                    dsimp only
                    rw [if_neg hname, if_neg hlast, hcached]
                    exact hloop
                  · cases hok
                    refine Eff.post_mono (ih hsound (Or.inr ⟨cur, hkid⟩) (skipSlashes rest)) ?_
                    rintro r v₂ ⟨kids₂, hsound₂, hgrows₂, hends⟩
                    refine ⟨kids₂, hsound₂, hgrows.trans hgrows₂, fun d out hd => ?_⟩
                    exact (hends d out hd).of_new hgrows hnew hnone hgrows₂ hsound₂
                      (cachedParentLoop_of_no_kids hsound.tree hnone)
                  · cases hcon

/-! ## What a resolution adds -/

/-- One dentry is another one or a parent of it, over any number of steps. -/
inductive Above (ds : Nat → Dentry) (t : Nat) : Nat → Prop
  | self : Above ds t t
  | step {p d : Nat} : (ds d).parent = some p → Above ds t p → Above ds t d

theorem Above.trans {ds : Nat → Dentry} {a b c : Nat} (h : Above ds a b) (h' : Above ds b c) :
    Above ds a c := by
  induction h' with
  | self => exact h
  | step hparent _ ih => exact Above.step hparent ih

/-- A child stays below its parent. -/
theorem Grows.above_kid (h : Grows v kids v' kids') (hs : Sound v kids) {p c : Nat}
    (hc : c ∈ kids p) : Above v'.dentries p c := by
  obtain ⟨f, hf⟩ := h.old c (hs.tree.used p c hc).2
  refine Above.step ?_ Above.self
  rw [hf]
  exact hs.tree.parent p c hc

/-- A resolution has gone down from one dentry to another, and the dentries that it has entered into
the cache are on its way. -/
structure Descends (v v' : VfsState σ) (cur d : Nat) : Prop where
  above : Above v'.dentries cur d
  new : ∀ t, (v.dentries t).inUse = false → (v'.dentries t).inUse → Above v'.dentries t d

theorem Descends.refl (v : VfsState σ) (cur : Nat) : Descends v v cur cur := by
  refine ⟨Above.self, fun t hfree hused => ?_⟩
  rw [hfree] at hused
  cases hused

/-- The loop of {lit}`resolve_parent_ns` enters nothing but the directories on its way. -/
theorem Sound.parentLoop_descends (h : Sound v kids) (hcur : (v.dentries cur).inUse) (fuel : Nat)
    (cursor : List UInt8) :
    Eff.Post (parentLoop drivers fuel cur cursor) v (fun r v' =>
      ∃ kids', Grows v kids v' kids' ∧ ∀ d out, r = .ok (d, out) → Descends v v' cur d) := by
  induction fuel generalizing v kids cur cursor with
  | zero =>
      refine Eff.post_of_eq rfl ⟨kids, Grows.refl, ?_⟩
      rintro d out ⟨⟩
      exact Descends.refl v cur
  | succ fuel ih =>
      have hstays : ∀ a, a.1 = cur → Eff.Post (pure a : VfsM σ (Nat × (Name ⊕ List UInt8))) v
          (fun r v' => ∃ kids', Grows v kids v' kids' ∧
            ∀ d out, r = .ok (d, out) → Descends v v' cur d) := by
        rintro a rfl
        refine Eff.post_of_eq rfl ⟨kids, Grows.refl, ?_⟩
        rintro d out ⟨⟩
        exact Descends.refl v d
      rw [parentLoop]
      split
      next => exact hstays _ rfl
      next =>
        split
        next => exact Eff.post_of_eq rfl ⟨kids, Grows.refl, nofun⟩
        next name rest _ =>
          split
          next => exact hstays _ rfl
          next =>
            split
            next => exact hstays _ rfl
            next =>
              refine Eff.post_bind (h.childStep_post hcur _ name) ?_ ?_
              · rintro stop v₁ (⟨c, hcon, _⟩ | ⟨c, k, hcon, _⟩ | ⟨_, _, hsound, hgrows⟩)
                · cases hcon
                · cases hcon
                · exact ⟨kids, hgrows, nofun⟩
              · rintro child v₁ (⟨c, hok, rfl, hcached⟩ | ⟨c, kids₁, hok, hsound, hgrows, hnew,
                  hkid, hnone, hothers⟩ | ⟨_, hcon, _⟩)
                · cases hok
                  have hkid := h.tree.cachedChild_mem hcached
                  have hused := (h.tree.used cur child hkid).2
                  refine Eff.post_mono (ih h hused (skipSlashes rest)) ?_
                  rintro r v₂ ⟨kids₂, hgrows₂, hdescends⟩
                  refine ⟨kids₂, hgrows₂, fun d out hd => ?_⟩
                  obtain ⟨habove, hnew⟩ := hdescends d out hd
                  exact ⟨(hgrows₂.above_kid h hkid).trans habove, hnew⟩
                · cases hok
                  have hused := (hsound.tree.used cur child hkid).2
                  refine Eff.post_mono (ih hsound hused (skipSlashes rest)) ?_
                  rintro r v₂ ⟨kids₂, hgrows₂, hdescends⟩
                  refine ⟨kids₂, hgrows.trans hgrows₂, fun d out hd => ?_⟩
                  obtain ⟨habove, hnew₂⟩ := hdescends d out hd
                  refine ⟨(hgrows₂.above_kid hsound hkid).trans habove, fun t hfree hused₂ => ?_⟩
                  by_cases ht : t = child
                  · rw [ht]
                    exact habove
                  · exact hnew₂ t ((hothers t ht).trans hfree) hused₂
                · cases hcon

/-! ## Namespaces -/

/-- The namespace of a name, when none is created. -/
def lookupNamespace (v : VfsState σ) (name : Name) : Option Nat :=
  if name = [] then v.defaultNamespace else findNamespace v.namespaces name

/-- The namespace and the local path of a path. -/
def namespaceOf (v : VfsState σ) (buffer path : List UInt8) : Option (Nat × List UInt8) :=
  match parseNamespacePath buffer path with
  | .error _ => none
  | .ok (name, localPath) => (lookupNamespace v name).map (fun ns => (ns, localPath))

/-- The dentry that a local path names, as far as every component of it is cached. -/
def namedIn (v : VfsState σ) (ns : Nat) (localPath : List UInt8) : Option Nat :=
  cachedLoop v.dentries (startCursor localPath).length
    (startOf (v.namespaces ns) localPath) (startCursor localPath)

/-- The dentry that a path names, as far as every component of it is cached. -/
def namedDentry (v : VfsState σ) (buffer path : List UInt8) : Option Nat :=
  match namespaceOf v buffer path with
  | none => none
  | some (ns, localPath) => namedIn v ns localPath

theorem findNamespace_used {namespaces : Nat → Namespace} {name : Name} {i : Nat}
    (h : findNamespace namespaces name = some i) : (namespaces i).inUse := by
  have hsome := List.find?_some h
  rw [Bool.and_eq_true] at hsome
  exact hsome.1

theorem Sound.lookupNamespace_used (h : Sound v kids) {name : Name} {i : Nat}
    (hi : lookupNamespace v name = some i) : (v.namespaces i).inUse := by
  unfold lookupNamespace at hi
  split at hi
  next => exact h.default_used i hi
  next => exact findNamespace_used hi

theorem getNamespace_false_run (name : Name) (v : VfsState σ) :
    getNamespace name false v = (.ok (lookupNamespace v name), v) := by
  unfold getNamespace lookupNamespace
  split
  next => rfl
  next => simp

/-- Looking up the namespace of a path has no effect. -/
theorem resolveNamespacePath_run (buffer path : List UInt8) (v : VfsState σ) :
    (∃ e, resolveNamespacePath buffer path false v = (.error (.status e), v)) ∨
      ∃ ns localPath, namespaceOf v buffer path = some (ns, localPath) ∧
        resolveNamespacePath buffer path false v = (.ok (ns, localPath), v) := by
  unfold resolveNamespacePath namespaceOf
  cases parseNamespacePath buffer path with
  | error e => exact Or.inl ⟨e, rfl⟩
  | ok parsed =>
      obtain ⟨name, localPath⟩ := parsed
      dsimp only
      cases hns : lookupNamespace v name with
      | none =>
          refine Or.inl ⟨.NnotFound, ?_⟩
          rw [Eff.bind_ok (getNamespace_false_run name v), hns]
          rfl
      | some ns =>
          refine Or.inr ⟨ns, localPath, rfl, ?_⟩
          rw [Eff.bind_ok (getNamespace_false_run name v), hns]
          rfl

theorem Sound.namespaceOf_used (h : Sound v kids) {buffer path localPath : List UInt8} {ns : Nat}
    (hns : namespaceOf v buffer path = some (ns, localPath)) : (v.namespaces ns).inUse := by
  unfold namespaceOf at hns
  split at hns
  next => cases hns
  next name _ _ =>
    obtain ⟨i, hi, heq⟩ := Option.map_eq_some_iff.mp hns
    cases heq
    exact h.lookupNamespace_used hi

/-- A path starts at a root of its namespace. -/
theorem startOf_isRoot {ns : Nat} (hns : (v.namespaces ns).inUse) (path : List UInt8) :
    IsRoot v (startOf (v.namespaces ns) path) := by
  refine ⟨ns, hns, ?_⟩
  unfold startOf
  split
  next => exact Or.inl rfl
  next => exact Or.inr rfl

/-! ## Looking back -/

/-- An old dentry that is found among the children now was found before. -/
theorem Grows.cachedChild_back (h : Grows v kids v' kids') (hs : Sound v kids)
    (hs' : Sound v' kids') {c : Nat} {name : Name} (hused : (v.dentries c).inUse)
    (hc : cachedChild v'.dentries cur name = some c) :
    cachedChild v.dentries cur name = some c := by
  rw [hs'.tree.cachedChild_eq] at hc
  rw [hs.tree.cachedChild_eq]
  obtain ⟨new, heq, hnew⟩ := h.extends_kids cur
  rw [heq, List.find?_append] at hc
  have hnone : new.find? (fun x => decide ((v'.dentries x).name = name)) = none := by
    cases hfind : new.find? (fun x => decide ((v'.dentries x).name = name)) with
    | none => rfl
    | some x =>
        rw [hfind] at hc
        cases hc
        have hfree := hnew c (List.mem_of_find?_eq_some hfind)
        rw [hfree] at hused
        cases hused
  rw [hnone, Option.none_or] at hc
  rw [← hc]
  refine List.find?_congr (fun x hx => ?_)
  obtain ⟨f, hf⟩ := h.old x (hs.tree.used cur x hx).2
  rw [hf]

/-- A path that leads to an old dentry now led there before. -/
theorem Grows.cachedLoop_back (h : Grows v kids v' kids') (hs : Sound v kids)
    (hs' : Sound v' kids') {fuel d : Nat} {cursor : List UInt8} (hused : (v.dentries d).inUse)
    (hd : cachedLoop v'.dentries fuel cur cursor = some d) :
    cachedLoop v.dentries fuel cur cursor = some d := by
  induction fuel generalizing cur cursor with
  | zero => exact hd
  | succ fuel ih =>
      rw [cachedLoop] at hd ⊢
      split at hd
      next hempty =>
        rw [if_pos hempty]
        exact hd
      next hempty =>
        rw [if_neg hempty]
        cases hparse : parseSegment cursor with
        | error e =>
            rw [hparse] at hd
            cases hd
        | ok segment =>
            obtain ⟨name, rest⟩ := segment
            rw [hparse] at hd
            dsimp only at hd ⊢
            split at hd
            next hname =>
              rw [if_pos hname]
              exact hd
            next hname =>
              rw [if_neg hname]
              cases hchild : cachedChild v'.dentries cur name with
              | none =>
                  rw [hchild] at hd
                  cases hd
              | some c =>
                  rw [hchild] at hd
                  have hloop := ih hd
                  -- below a new dentry nothing was cached, so the child is an old one
                  have hc : (v.dentries c).inUse := by
                    by_contra hfree
                    rw [Bool.not_eq_true] at hfree
                    obtain rfl := cachedLoop_of_no_kids hs.tree (hs.tree.kids_free hfree) hloop
                    rw [hfree] at hused
                    cases hused
                  rw [h.cachedChild_back hs hs' hc hchild]
                  exact hloop

/-- A path that names an old dentry now named it before. -/
theorem Grows.namedIn_back (h : Grows v kids v' kids') (hs : Sound v kids)
    (hs' : Sound v' kids') {ns d : Nat} {localPath : List UInt8} (hused : (v.dentries d).inUse)
    (hd : namedIn v' ns localPath = some d) : namedIn v ns localPath = some d := by
  unfold namedIn at hd
  rw [h.namespaces] at hd
  exact h.cachedLoop_back hs hs' hused hd

/-! ## The two resolvers -/

/-- {lit}`resolve_path_internal_ns` ends at the dentry that the path names in the
cache, or at a new one. -/
theorem Sound.resolvePath_post (h : Sound v kids) {ns : Nat} (hns : (v.namespaces ns).inUse)
    (localPath : List UInt8) :
    Eff.Post (resolvePathInternalNs drivers ns localPath) v (fun r v' =>
      ∃ kids', Sound v' kids' ∧ Grows v kids v' kids' ∧ ∀ d, r = .ok d →
        EndsAt v v' kids' (namedIn v ns localPath = some d) d) := by
  unfold resolvePathInternalNs
  refine Eff.post_gets_bind ?_
  exact h.resolveLoop_post (Or.inl (startOf_isRoot hns localPath)) _ _

/-- {lit}`resolve_parent_ns` ends at a cached directory, whose child of the last
component is the dentry that the path names, or at a new one. -/
theorem Sound.resolveParent_post (h : Sound v kids) {ns : Nat} (hns : (v.namespaces ns).inUse)
    (localPath : List UInt8) :
    Eff.Post (resolveParentNs drivers ns localPath) v (fun r v' =>
      ∃ kids', Sound v' kids' ∧ Grows v kids v' kids' ∧ ∀ d name, r = .ok (d, name) → name ≠ [] →
        EndsAt v v' kids' (∀ t, cachedChild v.dentries d name = some t →
          namedIn v ns localPath = some t) d) := by
  unfold resolveParentNs
  refine Eff.post_gets_bind ?_
  have hroot := startOf_isRoot hns localPath
  refine Eff.post_bind (h.parentLoop_post (Or.inl hroot) _ _) ?_ ?_
  · rintro e v' ⟨kids', hsound, hgrows, _⟩
    exact ⟨kids', hsound, hgrows, fun d name hd => by cases hd⟩
  · rintro ⟨current, out⟩ v' ⟨kids', hsound, hgrows, hends⟩
    cases out with
    | inl last =>
        refine Eff.post_of_eq rfl ⟨kids', hsound, hgrows, fun d name hd _ => ?_⟩
        cases hd
        obtain ⟨hplaced, hcase⟩ := hends current (.inl last) rfl
        refine ⟨hplaced, hcase.imp_left ?_⟩
        rintro ⟨hsame, hloop⟩
        exact ⟨hsame, fun t ht => cachedLoop_of_parent hloop ht⟩
    | inr rest =>
        dsimp only
        split
        next =>
          refine Eff.post_of_eq rfl ⟨kids', hsound, hgrows, fun d name hd hname => ?_⟩
          cases hd
          exact absurd rfl hname
        next =>
          exact Eff.post_of_eq rfl ⟨kids', hsound, hgrows, fun d name hd => by cases hd⟩

/-- {lit}`resolve_parent_ns` enters nothing but directories above the one that it ends at. -/
theorem Sound.resolveParent_above (h : Sound v kids) {ns d : Nat} (hns : (v.namespaces ns).inUse)
    {localPath : List UInt8} {name : Name}
    (hrun : resolveParentNs drivers ns localPath v = (.ok (d, name), v')) {t : Nat}
    (hfree : (v.dentries t).inUse = false) (hused : (v'.dentries t).inUse) :
    Above v'.dentries t d := by
  have hpost : Eff.Post (resolveParentNs drivers ns localPath) v (fun r v' =>
      ∀ d name, r = .ok (d, name) → Descends v v' (startOf (v.namespaces ns) localPath) d) := by
    unfold resolveParentNs
    refine Eff.post_gets_bind ?_
    have hroot := h.root_used _ (startOf_isRoot hns localPath)
    refine Eff.post_bind (h.parentLoop_descends hroot _ _) (fun e v' _ => nofun) ?_
    rintro ⟨current, out⟩ v' ⟨kids', -, hdescends⟩
    have hcurrent := hdescends current out rfl
    cases out with
    | inl last =>
        refine Eff.post_of_eq rfl ?_
        rintro d name ⟨⟩
        exact hcurrent
    | inr rest =>
        dsimp only
        split
        next =>
          refine Eff.post_of_eq rfl ?_
          rintro d name ⟨⟩
          exact hcurrent
        next => exact Eff.post_of_eq rfl nofun
  rw [Eff.Post, hrun] at hpost
  exact (hpost d name rfl).new t hfree hused

end Vfs
end Nyxis
