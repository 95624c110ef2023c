import Nyxis.Vfs.Calls

/-!
# What the calls keep of the drivers

A relation on the state of the drivers that every driver operation keeps is kept by the calls of the
virtual file system.  The operations that open and close files are left out, so that the relation may
say that the open files are as before.

Main results:

- Definition {lit}`Framed`: the relation is kept by the operations.
- Theorems {lit}`Framed.resolvePathInternal` and {lit}`Framed.resolveParentNs`: the resolvers.
- Theorems {lit}`Framed.makeEntry`, {lit}`Framed.vfsUnlink`, {lit}`Framed.vfsRename`,
  {lit}`Framed.vfsMount` and {lit}`Framed.vfsUnmount`: the calls.
-/

namespace Nyxis
namespace Vfs

open Eff (Moves)

variable {σ : Type} {drivers : Nat → VfsOps σ} {R : Drivers σ → Drivers σ → Prop}

/-- A relation that the operations of the drivers keep, and the release of a vnode, but for the
operations that open and close files. -/
structure Framed (drivers : Nat → VfsOps σ) (R : Drivers σ → Drivers σ → Prop) : Prop where
  refl : ∀ d, R d d
  trans : ∀ a b c, R a b → R b c → R a c
  freeVnode : ∀ node, Moves R (vfsFreeVnode node)
  lookup : ∀ k call, (drivers k).lookup = some call → ∀ dir name, Moves R (call dir name)
  read : ∀ k call, (drivers k).read = some call → ∀ h size, Moves R (call h size)
  write : ∀ k call, (drivers k).write = some call → ∀ h bytes, Moves R (call h bytes)
  stat : ∀ k call, (drivers k).stat = some call → ∀ node, Moves R (call node)
  create : ∀ k call, (drivers k).create = some call → ∀ dir name mode, Moves R (call dir name mode)
  mkdir : ∀ k call, (drivers k).mkdir = some call → ∀ dir name mode, Moves R (call dir name mode)
  unlink : ∀ k call, (drivers k).unlink = some call → ∀ dir name, Moves R (call dir name)
  readdir : ∀ k call, (drivers k).readdir = some call → ∀ dir index nameMax,
    Moves R (call dir index nameMax)
  rename : ∀ k call, (drivers k).rename = some call → ∀ dir name newDir newName,
    Moves R (call dir name newDir newName)

/-- The relation, between the drivers of two states. -/
def OnDrivers (R : Drivers σ → Drivers σ → Prop) (v v' : VfsState σ) : Prop :=
  R v.drv v'.drv

section Framed

variable (h : Framed drivers R)

include h

theorem Framed.still {α : Type} {m : VfsM σ α} (hm : ∀ v, (m v).2.drv = v.drv) :
    Moves (OnDrivers R) m := by
  intro v
  rw [OnDrivers, hm v]
  exact h.refl _

theorem Framed.bind {α β : Type} {m : VfsM σ α} {f : α → VfsM σ β} (hm : Moves (OnDrivers R) m)
    (hf : ∀ a, Moves (OnDrivers R) (f a)) : Moves (OnDrivers R) (m >>= f) :=
  hm.bind (fun _ _ _ => h.trans _ _ _) hf

theorem Framed.pure {α : Type} (a : α) : Moves (OnDrivers R) (pure a : VfsM σ α) :=
  h.still (fun _ => rfl)

theorem Framed.failWith {α : Type} (e : Nstatus) : Moves (OnDrivers R) (failWith e : VfsM σ α) :=
  h.still (fun _ => rfl)

theorem Framed.gets {α : Type} (g : VfsState σ → α) :
    Moves (OnDrivers R) (Eff.gets g : VfsM σ α) :=
  h.still (fun _ => rfl)

theorem Framed.setDentry (i : Nat) (f : Dentry → Dentry) :
    Moves (OnDrivers R) (setDentry i f) :=
  h.still (fun _ => rfl)

theorem Framed.findChild (parent : Nat) (name : Name) : Moves (OnDrivers R) (findChild parent name) :=
  h.still (fun _ => rfl)

omit h in
theorem Framed.callDriver {α : Type} {call : DriverM σ α} (hcall : Moves R call) :
    Moves (OnDrivers R) (callDriver call) :=
  fun v => hcall v.drv

theorem Framed.allocDentry (name : Name) (node parent : Option Nat) :
    Moves (OnDrivers R) (allocDentry name node parent) := by
  refine h.bind (h.gets _) (fun dentries => ?_)
  cases firstFree (fun i => (dentries i).inUse) vfsMaxDentries with
  | none => exact h.pure _
  | some i => exact h.bind (h.setDentry _ _) (fun _ => h.pure _)

theorem Framed.attachChild (parent child : Nat) : Moves (OnDrivers R) (attachChild parent child) :=
  h.bind (h.gets _) (fun _ => h.bind (h.setDentry _ _) (fun _ => h.setDentry _ _))

theorem Framed.detachLoop (parent child fuel : Nat) (current previous : Option Nat) :
    Moves (OnDrivers R) (detachLoop parent child fuel current previous) := by
  induction fuel generalizing current previous with
  | zero =>
      cases current with
      | none => exact h.pure _
      | some c => exact h.still (fun _ => rfl)
  | succ fuel ih =>
      cases current with
      | none => exact h.pure _
      | some c =>
          refine h.bind (h.gets _) (fun next => Eff.moves_ite ?_ (ih _ _))
          cases previous with
          | none => exact h.bind (h.setDentry _ _) (fun _ => h.setDentry _ _)
          | some p => exact h.bind (h.setDentry _ _) (fun _ => h.setDentry _ _)

theorem Framed.detachChild (parent child : Nat) : Moves (OnDrivers R) (detachChild parent child) :=
  h.bind (h.gets _) (fun _ => h.detachLoop _ _ _ _ _)

theorem Framed.dropDentry (parent d : Nat) : Moves (OnDrivers R) (dropDentry parent d) :=
  h.bind (h.detachChild _ _) (fun _ => h.bind (h.gets _) (fun _ =>
    h.bind (Framed.callDriver (h.freeVnode _)) (fun _ => h.setDentry _ _)))

omit h in
/-- A computation on the operations of a vnode. -/
theorem Framed.withOps {α : Type} (node : VfsState σ → Option Nat)
    {f : Option (Nat × VfsOps σ) → VfsM σ α} (hnone : Moves (OnDrivers R) (f none))
    (hsome : ∀ n k, Moves (OnDrivers R) (f (some (n, drivers k)))) :
    Moves (OnDrivers R) (Eff.gets (fun v => opsOf drivers v (node v)) >>= f) := by
  intro v
  rw [Eff.gets_bind_run]
  cases hnode : node v with
  | none => exact hnone v
  | some n =>
      rw [opsOf]
      cases (v.drv.vnodes n).ops with
      | none => exact hnone v
      | some k => exact hsome n k v

omit h in
theorem gives_withOps {α : Type} {T : VfsState σ → VfsState σ → Prop} (node : VfsState σ → Option Nat)
    {f : Option (Nat × VfsOps σ) → VfsM σ α} (hnone : Eff.Gives T (f none))
    (hsome : ∀ n k, Eff.Gives T (f (some (n, drivers k)))) :
    Eff.Gives T (Eff.gets (fun v => opsOf drivers v (node v)) >>= f) := by
  intro v
  rw [Eff.gets_bind_run]
  cases hnode : node v with
  | none => exact hnone v
  | some n =>
      rw [opsOf]
      cases (v.drv.vnodes n).ops with
      | none => exact hnone v
      | some k => exact hsome n k v

/-! ## Resolution -/

theorem Framed.childStep (missing : Nstatus) (current : Nat) (name : Name) :
    Moves (OnDrivers R) (childStep drivers missing current name) := by
  refine h.bind (h.findChild _ _) (fun found => ?_)
  cases found with
  | some child => exact h.pure _
  | none =>
      refine Framed.withOps _ (h.failWith _) (fun dir k => ?_)
      dsimp only
      cases hlookup : (drivers k).lookup with
      | none => exact h.failWith _
      | some lookup =>
          refine h.bind (Framed.callDriver (h.lookup k lookup hlookup _ _)) (fun found => ?_)
          cases found with
          | none => exact h.failWith _
          | some vnode =>
              refine h.bind (h.allocDentry _ _ _) (fun slot => ?_)
              cases slot with
              | none => exact h.bind (Framed.callDriver (h.freeVnode _)) (fun _ => h.failWith _)
              | some child => exact h.bind (h.attachChild _ _) (fun _ => h.pure _)

theorem Framed.resolveLoop (fuel current : Nat) (cursor : List UInt8) :
    Moves (OnDrivers R) (resolveLoop drivers fuel current cursor) := by
  induction fuel generalizing current cursor with
  | zero => exact h.pure _
  | succ fuel ih =>
      refine Eff.moves_ite (h.pure _) ?_
      cases parseSegment cursor with
      | error e => exact h.failWith _
      | ok segment =>
          obtain ⟨name, rest⟩ := segment
          exact Eff.moves_ite (h.pure _) (h.bind (h.childStep _ _ _) (fun _ => ih _ _))

theorem Framed.parentLoop (fuel current : Nat) (cursor : List UInt8) :
    Moves (OnDrivers R) (parentLoop drivers fuel current cursor) := by
  induction fuel generalizing current cursor with
  | zero => exact h.pure _
  | succ fuel ih =>
      refine Eff.moves_ite (h.pure _) ?_
      cases parseSegment cursor with
      | error e => exact h.failWith _
      | ok segment =>
          obtain ⟨name, rest⟩ := segment
          exact Eff.moves_ite (h.pure _) (Eff.moves_ite (h.pure _)
            (h.bind (h.childStep _ _ _) (fun _ => ih _ _)))

theorem Framed.getNamespace (name : Name) (create : Bool) :
    Moves (OnDrivers R) (getNamespace name create : VfsM σ _) := by
  refine Eff.moves_ite (h.gets _) (h.bind (h.gets _) (fun namespaces => ?_))
  refine Eff.moves_ite (h.pure _) (h.bind (h.allocDentry _ _ _) (fun slot => ?_))
  cases slot with
  | none => exact h.pure _
  | some root =>
      refine h.bind ?_ (fun ns => ?_)
      · refine h.bind (h.gets _) (fun namespaces => ?_)
        cases firstFree (fun i => (namespaces i).inUse) vfsMaxNamespaces with
        | none => exact h.pure _
        | some i => exact h.bind (h.still (fun _ => rfl)) (fun _ => h.pure _)
      · cases ns with
        | none => exact h.bind (h.setDentry _ _) (fun _ => h.pure _)
        | some ns => exact h.pure _

theorem Framed.resolveNamespacePath (buffer path : List UInt8) (create : Bool) :
    Moves (OnDrivers R) (resolveNamespacePath buffer path create : VfsM σ _) := by
  unfold Vfs.resolveNamespacePath
  cases parseNamespacePath buffer path with
  | error e => exact h.failWith _
  | ok parsed =>
      obtain ⟨name, localPath⟩ := parsed
      refine h.bind (h.getNamespace _ _) (fun ns => ?_)
      cases ns with
      | none => exact h.failWith _
      | some ns => exact h.pure _

theorem Framed.resolvePathInternalNs (ns : Nat) (path : List UInt8) :
    Moves (OnDrivers R) (resolvePathInternalNs drivers ns path) :=
  h.bind (h.gets _) (fun _ => h.resolveLoop _ _ _)

theorem Framed.resolvePathInternal (buffer path : List UInt8) :
    Moves (OnDrivers R) (resolvePathInternal drivers buffer path) :=
  h.bind (h.resolveNamespacePath _ _ _) (fun _ => h.resolvePathInternalNs _ _)

theorem Framed.resolveParentNs (ns : Nat) (path : List UInt8) :
    Moves (OnDrivers R) (resolveParentNs drivers ns path) := by
  refine h.bind (h.gets _) (fun space => h.bind (h.parentLoop _ _ _) (fun place => ?_))
  obtain ⟨current, out⟩ := place
  cases out with
  | inl name => exact h.pure _
  | inr cursor => exact Eff.moves_ite (h.pure _) (h.failWith _)

/-! ## Calls -/

theorem Framed.makeEntry {make : VfsOps σ → Option (Nat → Name → Nat → DriverM σ (Option Nat))}
    (hmake : ∀ k call, make (drivers k) = some call → ∀ dir name mode, Moves R (call dir name mode))
    (buffer path : List UInt8) (mode : Nat) :
    Moves (OnDrivers R) (makeEntry drivers make buffer path mode) := by
  refine Eff.moves_ite (h.failWith _) (h.bind (h.resolveNamespacePath _ _ _) (fun space => ?_))
  refine h.bind (h.resolveParentNs _ _) (fun place => Eff.moves_ite (h.failWith _) ?_)
  refine Framed.withOps _ (h.failWith _) (fun dir k => ?_)
  dsimp only
  cases hop : make (drivers k) with
  | none => exact h.failWith _
  | some create =>
      refine h.bind (h.findChild _ _) (fun existing => h.bind (h.gets _) (fun dentries => ?_))
      refine Eff.moves_ite (h.failWith _)
        (h.bind (Framed.callDriver (hmake k create hop _ _ _)) (fun child => ?_))
      cases existing with
      | some e => exact h.setDentry _ _
      | none =>
          refine h.bind (h.allocDentry _ _ _) (fun slot => ?_)
          cases slot with
          | none => exact h.bind (Framed.callDriver (h.freeVnode _)) (fun _ => h.failWith _)
          | some new => exact h.attachChild _ _

theorem Framed.vfsUnlink (buffer path : List UInt8) :
    Moves (OnDrivers R) (vfsUnlink drivers buffer path) := by
  refine Eff.moves_ite (h.failWith _) (h.bind (h.resolveNamespacePath _ _ _) (fun space => ?_))
  refine h.bind (h.resolveParentNs _ _) (fun place => Eff.moves_ite (h.failWith _) ?_)
  refine Framed.withOps _ (h.failWith _) (fun dir k => ?_)
  dsimp only
  cases hop : (drivers k).unlink with
  | none => exact h.failWith _
  | some unlink =>
      refine h.bind (Framed.callDriver (h.unlink k unlink hop _ _)) (fun _ => ?_)
      refine h.bind (h.findChild _ _) (fun existing => ?_)
      cases existing with
      | none => exact h.pure _
      | some e => exact h.dropDentry _ _

theorem Framed.checkNoCycle (moved : Option Nat) (newParent : Nat) :
    Moves (OnDrivers R) (checkNoCycle moved newParent : VfsM σ _) := by
  cases moved with
  | none => exact h.pure _
  | some d =>
      refine h.bind (h.gets _) (fun dentries => ?_)
      cases isAncestor dentries d vfsMaxDentries (some newParent) with
      | error stop => exact h.still (fun _ => rfl)
      | ok found =>
          cases found with
          | true => exact h.failWith _
          | false => exact h.pure _

theorem Framed.moveDentry (oldParent newParent d : Nat) (newName : Name) :
    Moves (OnDrivers R) (moveDentry oldParent newParent d newName) :=
  h.bind (h.detachChild _ _) (fun _ => h.bind (h.setDentry _ _) (fun _ => h.attachChild _ _))

theorem Framed.vfsRename (oldBuffer newBuffer oldPath newPath : List UInt8) :
    Moves (OnDrivers R) (vfsRename drivers oldBuffer newBuffer oldPath newPath) := by
  refine Eff.moves_ite (h.failWith _) (h.bind (h.resolveNamespacePath _ _ _) (fun oldSpace => ?_))
  refine h.bind (h.resolveNamespacePath _ _ _) (fun newSpace => Eff.moves_ite (h.failWith _) ?_)
  refine h.bind (h.resolveParentNs _ _) (fun oldPlace => ?_)
  refine h.bind (h.resolveParentNs _ _) (fun newPlace => Eff.moves_ite (h.failWith _) ?_)
  refine Framed.withOps _ (h.failWith _) (fun dir k => ?_)
  dsimp only
  cases hop : (drivers k).rename with
  | none => exact h.failWith _
  | some rename =>
      refine h.bind (h.findChild _ _) (fun existingOld => ?_)
      refine h.bind (h.checkNoCycle _ _) (fun _ => h.bind (h.gets _) (fun newDir => ?_))
      refine h.bind (Framed.callDriver (h.rename k rename hop _ _ _ _)) (fun _ => ?_)
      refine h.bind (h.findChild _ _) (fun existingNew => ?_)
      cases existingNew with
      | none =>
          cases existingOld with
          | none => exact h.pure _
          | some d => exact h.moveDentry _ _ _ _
      | some e =>
          refine h.bind (h.dropDentry _ _) (fun _ => ?_)
          cases existingOld with
          | none => exact h.pure _
          | some d => exact h.moveDentry _ _ _ _

theorem Framed.vfsReaddir (buffer path : List UInt8) (index nameMax : Nat) :
    Moves (OnDrivers R) (vfsReaddir drivers buffer path index nameMax) := by
  refine Eff.moves_ite (h.failWith _) (h.bind (h.resolvePathInternal _ _) (fun target => ?_))
  refine Framed.withOps _ (h.failWith _) (fun node k => ?_)
  dsimp only
  cases hop : (drivers k).readdir with
  | none => exact h.failWith _
  | some readdir => exact Framed.callDriver (h.readdir k readdir hop _ _ _)

theorem Framed.vfsRead (handle : Handle) (size : Nat) :
    Moves (OnDrivers R) (vfsRead drivers handle size) := by
  refine Framed.withOps _ (h.failWith _) (fun node k => ?_)
  dsimp only
  cases hop : (drivers k).read with
  | none => exact h.failWith _
  | some read => exact h.bind (Framed.callDriver (h.read k read hop _ _)) (fun _ => h.pure _)

theorem Framed.vfsWrite (handle : Handle) (bytes : List UInt8) :
    Moves (OnDrivers R) (vfsWrite drivers handle bytes) := by
  refine Framed.withOps _ (h.failWith _) (fun node k => ?_)
  dsimp only
  cases hop : (drivers k).write with
  | none => exact h.failWith _
  | some write => exact h.bind (Framed.callDriver (h.write k write hop _ _)) (fun _ => h.pure _)

theorem Framed.vfsFstat (handle : Handle) : Moves (OnDrivers R) (vfsFstat drivers handle) := by
  refine Framed.withOps _ (h.failWith _) (fun node k => ?_)
  dsimp only
  cases hop : (drivers k).stat with
  | none => exact h.failWith _
  | some stat => exact Framed.callDriver (h.stat k stat hop _)

theorem Framed.vfsRegisterNamespace (buffer : List UInt8) (name : Name) (sourcePath : List UInt8) :
    Moves (OnDrivers R) (vfsRegisterNamespace drivers buffer name sourcePath) := by
  refine h.bind (h.resolveNamespacePath _ _ _) (fun space => ?_)
  refine h.bind (h.resolvePathInternalNs _ _) (fun root => ?_)
  refine h.bind (h.getNamespace _ _) (fun target => ?_)
  cases target with
  | none => exact h.failWith _
  | some target => exact h.still (fun _ => rfl)

theorem Framed.vfsMount (buffer path : List UInt8) (fsRoot : Nat) :
    Moves (OnDrivers R) (vfsMount drivers buffer path fsRoot) := by
  refine Eff.moves_ite (h.failWith _) (h.bind (h.resolveNamespacePath _ _ _) (fun space => ?_))
  refine Eff.moves_ite ?_ ?_
  · refine h.bind (h.gets _) (fun root => h.bind (h.gets _) (fun node => ?_))
    exact Eff.moves_ite (h.failWith _) (h.setDentry _ _)
  · refine h.bind (h.resolveParentNs _ _) (fun place => Eff.moves_ite (h.failWith _) ?_)
    refine h.bind (h.findChild _ _) (fun existing => ?_)
    cases existing with
    | some e =>
        refine h.bind (h.gets _) (fun node => ?_)
        exact Eff.moves_ite (h.failWith _) (h.setDentry _ _)
    | none =>
        refine h.bind (h.allocDentry _ _ _) (fun slot => ?_)
        cases slot with
        | none => exact h.failWith _
        | some child => exact h.attachChild _ _

theorem Framed.vfsUnmount (buffer path : List UInt8) :
    Moves (OnDrivers R) (vfsUnmount drivers buffer path) := by
  refine Eff.moves_ite (h.failWith _) (h.bind (h.resolveNamespacePath _ _ _) (fun space => ?_))
  refine Eff.moves_ite ?_ ?_
  · refine h.bind (h.gets _) (fun root => h.bind (h.gets _) (fun node => ?_))
    exact Eff.moves_ite (h.failWith _) (h.setDentry _ _)
  · refine h.bind (h.resolvePathInternalNs _ _) (fun mountPoint => h.bind (h.gets _) (fun entry => ?_))
    refine Eff.moves_ite (h.failWith _) ?_
    cases entry.parent with
    | some parent => exact h.bind (h.detachChild _ _) (fun _ => h.setDentry _ _)
    | none => exact h.setDentry _ _

end Framed

end Vfs
end Nyxis
