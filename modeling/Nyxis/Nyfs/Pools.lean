import Nyxis.Nyfs.CreateErrors
import Nyxis.Vfs.Frame

/-!
# What goes back to the pools

The data of a vnode is taken when a name is looked up or created, and no call of the virtual file system
gives it back: a file that is created and unlinked costs one entry of the pool.

Main results:

- Theorem {lit}`nyfs_framed`: what the operations of the driver keep.
- Theorem {lit}`create_unlink_leaks`: a creation and a removal.
-/

namespace Nyxis
namespace Nyfs

open Eff (Moves)
open Vfs (VfsState VfsM Drivers Handle Name Framed OnDrivers)

variable {D : Type} [ReliableDevice D] {s s' : VfsState (NyfsState D)} {drv drv' : Drivers (NyfsState D)}

/-! ## The operations of the driver -/

/-- The open files are as before, and the data of vnodes that is in use stays in use. -/
structure KeepsPools (drv drv' : Drivers (NyfsState D)) : Prop where
  handleSlots : drv'.fs.handleSlots = drv.fs.handleSlots
  vnodeData : ∀ i, (drv.fs.vnodeData i).inUse = true → (drv'.fs.vnodeData i).inUse = true

section Pools

omit [ReliableDevice D]

theorem KeepsPools.refl (drv : Drivers (NyfsState D)) : KeepsPools drv drv :=
  ⟨rfl, fun _ h => h⟩

theorem KeepsPools.trans (a b c : Drivers (NyfsState D)) (h : KeepsPools a b) (h' : KeepsPools b c) :
    KeepsPools a c :=
  ⟨h'.handleSlots.trans h.handleSlots, fun i hi => h'.vnodeData i (h.vnodeData i hi)⟩

theorem reads_vnodeEntry (vnode : Nat) : Eff.Reads (vnodeEntry vnode : KernelM D _) := by
  refine (Eff.reads_gets _).bind (fun entry => ?_)
  unfold requireEntry
  split
  next => exact Eff.reads_pure _
  next => exact Eff.reads_fail _

theorem reads_handleEntry (handle : Handle) : Eff.Reads (handleEntry handle : KernelM D _) := by
  refine (Eff.reads_gets _).bind (fun entry => ?_)
  unfold requireEntry
  split
  next => exact Eff.reads_pure _
  next => exact Eff.reads_fail _

theorem keepsPools_of_reads {α : Type} {m : KernelM D α} (h : Eff.Reads m) : Moves KeepsPools m :=
  h.moves KeepsPools.refl

theorem onVolume_keepsPools {α : Type} (k : Nat) (m : NyfsM D α) : Moves KeepsPools (onVolume k m) :=
  fun _ => ⟨rfl, fun _ h => h⟩

theorem keepsPools_bind {α β : Type} {m : KernelM D α} {f : α → KernelM D β} (hm : Moves KeepsPools m)
    (hf : ∀ a, Moves KeepsPools (f a)) : Moves KeepsPools (m >>= f) :=
  hm.bind KeepsPools.trans hf

theorem makeVnode_keepsPools (vol ino type : Nat) :
    Moves KeepsPools (makeVnode vol ino type : KernelM D _) := by
  intro drv
  rcases makeVnode_cases drv vol ino type with ⟨m, slot, -, -, hmake⟩ | ⟨-, vnodes, hmake, -⟩
  · rw [hmake]
    refine ⟨rfl, fun i hi => ?_⟩
    change (Function.update drv.fs.vnodeData slot ⟨true, ⟨some vol, ino⟩⟩ i).inUse = true
    by_cases hslot : i = slot
    · rw [hslot, Function.update_self]
    · rw [Function.update_of_ne hslot]
      exact hi
  · rw [hmake]
    exact ⟨rfl, fun _ h => h⟩

end Pools

theorem nyfsMake_keepsPools (isDir : Bool) (dir : Nat) (name : Name) (mode : Nat) :
    Moves KeepsPools (nyfsMake isDir dir name mode : KernelM D _) :=
  keepsPools_bind (keepsPools_of_reads (reads_vnodeEntry dir)) (fun _ =>
    keepsPools_bind (keepsPools_of_reads (Eff.reads_gets _)) (fun _ =>
      keepsPools_bind (onVolume_keepsPools _ _) (fun _ => makeVnode_keepsPools _ _ _)))

/-- What the operations of the driver keep. -/
theorem nyfs_framed : Framed (nyfsDrivers (D := D)) KeepsPools where
  refl := KeepsPools.refl
  trans := KeepsPools.trans
  freeVnode := by
    rintro (- | n) drv
    · exact KeepsPools.refl _
    · exact ⟨rfl, fun _ h => h⟩
  lookup := by
    rintro k call ⟨⟩ dir name
    exact keepsPools_bind (keepsPools_of_reads (reads_vnodeEntry dir)) (fun _ =>
      keepsPools_bind (keepsPools_of_reads (Eff.reads_gets _)) (fun _ =>
        keepsPools_bind (onVolume_keepsPools _ _) (fun _ => makeVnode_keepsPools _ _ _)))
  read := by
    rintro k call ⟨⟩ h size
    exact keepsPools_bind (keepsPools_of_reads (reads_handleEntry h)) (fun _ => onVolume_keepsPools _ _)
  write := by
    rintro k call ⟨⟩ h bytes
    exact keepsPools_bind (keepsPools_of_reads (reads_handleEntry h)) (fun _ => onVolume_keepsPools _ _)
  stat := by
    rintro k call ⟨⟩ node
    exact keepsPools_bind (keepsPools_of_reads (reads_vnodeEntry node)) (fun _ =>
      keepsPools_bind (onVolume_keepsPools _ _) (fun _ => (keepsPools_of_reads (Eff.reads_pure _))))
  create := by
    rintro k call ⟨⟩ dir name mode
    exact nyfsMake_keepsPools false dir name mode
  mkdir := by
    rintro k call ⟨⟩ dir name mode
    exact nyfsMake_keepsPools true dir name mode
  unlink := by
    rintro k call ⟨⟩ dir name
    exact keepsPools_bind (keepsPools_of_reads (reads_vnodeEntry dir)) (fun _ =>
      keepsPools_bind (keepsPools_of_reads (Eff.reads_gets _)) (fun _ => onVolume_keepsPools _ _))
  readdir := by
    rintro k call ⟨⟩ dir index nameMax
    refine Eff.moves_ite (keepsPools_of_reads (Eff.reads_fail _))
      (keepsPools_bind (keepsPools_of_reads (reads_vnodeEntry dir)) (fun _ => ?_))
    exact keepsPools_bind (keepsPools_of_reads (Eff.reads_gets _)) (fun _ =>
      keepsPools_bind (onVolume_keepsPools _ _) (fun _ => (keepsPools_of_reads (Eff.reads_pure _))))
  rename := by
    rintro k call ⟨⟩ dir name newDir newName
    cases newDir with
    | none => exact (keepsPools_of_reads (Eff.reads_fail _))
    | some newDir =>
        refine keepsPools_bind (keepsPools_of_reads (reads_vnodeEntry dir)) (fun _ =>
          keepsPools_bind (keepsPools_of_reads (reads_vnodeEntry newDir)) (fun _ => ?_))
        exact Eff.moves_ite (keepsPools_of_reads (Eff.reads_fail _))
          (keepsPools_bind (keepsPools_of_reads (Eff.reads_gets _)) (fun _ => onVolume_keepsPools _ _))

/-! ## Calls that open and close files -/

/-- The data of vnodes that is in use stays in use. -/
def KeepsData (drv drv' : Drivers (NyfsState D)) : Prop :=
  ∀ i, (drv.fs.vnodeData i).inUse = true → (drv'.fs.vnodeData i).inUse = true

/-- The data of a vnode has been taken, and none given back. -/
structure TakesData (drv drv' : Drivers (NyfsState D)) : Prop where
  keeps : KeepsData drv drv'
  takes : ∃ i, i < nyfsMaxVnodeData ∧ (drv.fs.vnodeData i).inUse = false ∧
    (drv'.fs.vnodeData i).inUse = true

section Data

omit [ReliableDevice D]

theorem KeepsData.trans (a b c : Drivers (NyfsState D)) (h : KeepsData a b) (h' : KeepsData b c) :
    KeepsData a c :=
  fun i hi => h' i (h i hi)

theorem keepsData_of_pools {α : Type} {m : VfsM (NyfsState D) α} (h : Moves (OnDrivers KeepsPools) m) :
    Moves (OnDrivers KeepsData) m :=
  fun s => (h s).vnodeData

theorem KeepsData.takes (a b c : Drivers (NyfsState D)) (h : KeepsData a b) (h' : TakesData b c) :
    TakesData a c := by
  obtain ⟨i, hlt, hfree, hused⟩ := h'.takes
  refine ⟨h.trans a b c h'.keeps, i, hlt, ?_, hused⟩
  cases hi : (a.fs.vnodeData i).inUse with
  | false => rfl
  | true =>
      rw [h i hi] at hfree
      cases hfree

theorem TakesData.keepsData (a b c : Drivers (NyfsState D)) (h : TakesData a b) (h' : KeepsData b c) :
    TakesData a c := by
  obtain ⟨i, hlt, hfree, hused⟩ := h.takes
  exact ⟨h.keeps.trans a b c h', i, hlt, hfree, h' i hused⟩

/-- The number of entries in use, when one has been taken and none given back. -/
theorem countP_lt_of_taken {inUse inUse' : Nat → Bool} {count i : Nat} (hi : i < count)
    (hkeeps : ∀ j, inUse j = true → inUse' j = true) (hfree : inUse i = false)
    (hused : inUse' i = true) :
    (List.range count).countP inUse < (List.range count).countP inUse' := by
  have hmem := List.mem_range.mpr hi
  generalize List.range count = js at hmem
  induction js with
  | nil => cases hmem
  | cons j rest ih =>
      have hle : rest.countP inUse ≤ rest.countP inUse' :=
        List.countP_mono_left (fun k _ => hkeeps k)
      rw [List.countP_cons, List.countP_cons]
      rcases List.mem_cons.mp hmem with rfl | hrest
      · rw [hfree, hused]
        simp only [Bool.false_eq_true, if_false, if_true]
        omega
      · have hlt := ih hrest
        have hj := hkeeps j
        split
        next hold =>
          rw [if_pos (hj hold)]
          omega
        next => omega

theorem TakesData.usedSlots_lt {s s' : VfsState (NyfsState D)} (h : TakesData s.drv s'.drv) :
    (usedSlots s).vnodeData < (usedSlots s').vnodeData := by
  obtain ⟨i, hlt, hfree, hused⟩ := h.takes
  exact countP_lt_of_taken hlt h.keeps hfree hused

end Data

theorem nyfsOpen_keepsData (vnode flags : Nat) (handle : Handle) :
    Moves KeepsData (nyfsOpen vnode flags handle : KernelM D _) := by
  have hrefl : ∀ drv : Drivers (NyfsState D), KeepsData drv drv := fun _ _ hi => hi
  refine ((reads_vnodeEntry vnode).moves hrefl).bind KeepsData.trans (fun _ => ?_)
  refine ((Eff.reads_gets _).moves hrefl).bind KeepsData.trans (fun _ => ?_)
  refine Eff.Moves.bind (fun _ _ hi => hi) KeepsData.trans (fun _ => ?_)
  refine Eff.Moves.bind (fun drv => ?_) KeepsData.trans (fun slot => ?_)
  · rw [nyfsAllocHandleData_eq]
    split
    next => exact hrefl drv
    next => exact fun _ hi => hi
  · cases slot with
    | none => exact hrefl
    | some slot => exact hrefl

theorem vfsOpen_keepsData (buffer path : List UInt8) (flags : Nat) :
    Moves (OnDrivers KeepsData) (Vfs.vfsOpen (nyfsDrivers (D := D)) buffer path flags) := by
  refine (keepsData_of_pools (nyfs_framed.resolvePathInternal buffer path)).bind
    (fun _ _ _ => KeepsData.trans _ _ _) (fun target => ?_)
  refine Framed.withOps _ (fun _ _ hi => hi) (fun n k => ?_)
  exact Framed.callDriver (nyfsOpen_keepsData _ _ _)

/-- No call gives back the data of a vnode. -/
theorem MountCall.keepsData (c : MountCall) (s : VfsState (NyfsState D)) :
    KeepsData s.drv (c.exec s).drv := by
  cases c with
  | create buffer path mode =>
      exact keepsData_of_pools (nyfs_framed.makeEntry nyfs_framed.create buffer path mode) s
  | mkdir buffer path mode =>
      exact keepsData_of_pools (nyfs_framed.makeEntry nyfs_framed.mkdir buffer path mode) s
  | unlink buffer path => exact keepsData_of_pools (nyfs_framed.vfsUnlink buffer path) s
  | rename oldBuffer newBuffer oldPath newPath =>
      exact keepsData_of_pools (nyfs_framed.vfsRename oldBuffer newBuffer oldPath newPath) s
  | openFile buffer path flags => exact vfsOpen_keepsData buffer path flags s
  | readdir buffer path index nameMax =>
      exact keepsData_of_pools (nyfs_framed.vfsReaddir buffer path index nameMax) s
  | read handle size => exact keepsData_of_pools (nyfs_framed.vfsRead handle size) s
  | write handle bytes => exact keepsData_of_pools (nyfs_framed.vfsWrite handle bytes) s
  | close handle =>
      obtain ⟨slots, hclose⟩ := vfsClose_state s handle
      intro i hi
      rw [MountCall.exec, hclose]
      exact hi
  | become cred => exact fun _ hi => hi

theorem keepsData_calls (calls : List MountCall) (s : VfsState (NyfsState D)) :
    KeepsData s.drv (calls.foldl MountCall.exec s).drv := by
  induction calls generalizing s with
  | nil => exact fun _ hi => hi
  | cons c calls ih => exact KeepsData.trans _ _ _ (c.keepsData s) (ih (c.exec s))

/-! ## Creations -/

/-- A creation that the driver reports as done has taken the data of a vnode. -/
theorem nyfsMake_takes (isDir : Bool) (dir : Nat) (name : Name) (mode : Nat) :
    Eff.Gives TakesData (nyfsMake isDir dir name mode : KernelM D _) := by
  have hrefl : ∀ drv : Drivers (NyfsState D), KeepsData drv drv := fun _ _ hi => hi
  refine ((reads_vnodeEntry dir).moves hrefl).gives_bind KeepsData.takes (fun place => ?_)
  refine ((Eff.reads_gets _).moves hrefl).gives_bind KeepsData.takes (fun cred => ?_)
  refine (onVolume_keepsPools _ _).gives_bind (fun _ _ _ h => KeepsData.takes _ _ _ h.vnodeData)
    (fun newIno => ?_)
  intro drv child hchild
  rcases makeVnode_cases drv place.1 newIno (if isDir then 2 else 1) with
    ⟨m, slot, -, hslot, hmake⟩ | ⟨-, vnodes, hmake, -⟩
  · obtain ⟨hlt, hfree⟩ := Vfs.firstFree_spec hslot
    refine ⟨(makeVnode_keepsPools _ _ _ drv).vnodeData, slot, hlt, hfree, ?_⟩
    rw [hmake]
    change (Function.update drv.fs.vnodeData slot ⟨true, ⟨some place.1, newIno⟩⟩ slot).inUse = true
    rw [Function.update_self]
  · rw [hmake] at hchild
    cases hchild

/-- A creation that succeeds has taken the data of a vnode. -/
theorem makeEntry_takes (isDir : Bool) (buffer path : List UInt8) (mode : Nat) :
    Eff.Gives (OnDrivers TakesData)
      (Vfs.makeEntry (nyfsDrivers (D := D)) (makeOp isDir) buffer path mode) := by
  have htakes : ∀ a b c : VfsState (NyfsState D), OnDrivers KeepsPools a b → OnDrivers TakesData b c →
      OnDrivers TakesData a c := fun _ _ _ h h' => KeepsData.takes _ _ _ h.vnodeData h'
  have hkeeps : ∀ a b c : VfsState (NyfsState D), OnDrivers TakesData a b → OnDrivers KeepsPools b c →
      OnDrivers TakesData a c := fun _ _ _ h h' => TakesData.keepsData _ _ _ h h'.vnodeData
  have hF := nyfs_framed (D := D)
  refine Eff.gives_ite (Eff.gives_fail _) ?_
  refine (hF.resolveNamespacePath _ _ _).gives_bind htakes (fun space => ?_)
  refine (hF.resolveParentNs _ _).gives_bind htakes (fun place => Eff.gives_ite (Eff.gives_fail _) ?_)
  refine Vfs.gives_withOps _ (Eff.gives_fail _) (fun dir k => ?_)
  have hop : makeOp isDir (nyfsDrivers (D := D) k) = some (nyfsMake isDir) := by
    cases isDir with
    | false => rfl
    | true => rfl
  dsimp only
  rw [hop]
  refine (hF.findChild _ _).gives_bind htakes (fun existing => ?_)
  refine (hF.gets _).gives_bind htakes (fun dentries => Eff.gives_ite (Eff.gives_fail _) ?_)
  have hcall : Eff.Gives (OnDrivers TakesData)
      (Vfs.callDriver (nyfsMake isDir dir place.2 mode) : VfsM (NyfsState D) _) :=
    fun s child hchild => nyfsMake_takes isDir dir place.2 mode s.drv child hchild
  refine hcall.bind_moves hkeeps (fun child => ?_)
  cases existing with
  | some e => exact hF.setDentry _ _
  | none =>
      refine hF.bind (hF.allocDentry _ _ _) (fun slot => ?_)
      cases slot with
      | none => exact hF.bind (Framed.callDriver (hF.freeVnode _)) (fun _ => hF.failWith _)
      | some new => exact hF.attachChild _ _

/-! ## Creations and removals -/

/-- The number of open files. -/
def usedHandles (s : VfsState (NyfsState D)) : Nat :=
  (List.range nyfsMaxHandles).countP (fun i => (s.drv.fs.handleSlots i).inUse)

/-- The same numbers of dentries, vnodes, data of vnodes and open files are in use. -/
structure PoolsConserved (s s' : VfsState (NyfsState D)) : Prop where
  slots : usedSlots s' = usedSlots s
  handles : usedHandles s' = usedHandles s

/-- A call that makes a file or a directory. -/
def makeCall (isDir : Bool) (buffer path : List UInt8) (mode : Nat) : VfsM (NyfsState D) Unit :=
  if isDir then Vfs.vfsMkdir nyfsDrivers buffer path mode else Vfs.vfsCreate nyfsDrivers buffer path mode

/-- What a creation has taken is in use after any calls and a removal. -/
theorem taken_after_unlink {isDir : Bool} {buffer buffer' path : List UInt8} {mode : Nat}
    {calls : List MountCall} {s s₁ s₂ : VfsState (NyfsState D)}
    (hmake : makeCall isDir buffer path mode s = (.ok (), s₁))
    (hunlink : Vfs.vfsUnlink nyfsDrivers buffer' path (calls.foldl MountCall.exec s₁) = (.ok (), s₂)) :
    TakesData s.drv s₂.drv := by
  have hmake' : Vfs.makeEntry nyfsDrivers (makeOp isDir) buffer path mode s = (.ok (), s₁) := by
    cases isDir with
    | false => exact hmake
    | true => exact hmake
  have htakes := makeEntry_takes isDir buffer path mode s () (by rw [hmake'])
  rw [hmake'] at htakes
  have hremove := (nyfs_framed.vfsUnlink buffer' path (calls.foldl MountCall.exec s₁)).vnodeData
  rw [hunlink] at hremove
  exact TakesData.keepsData _ _ _ htakes (KeepsData.trans _ _ _ (keepsData_calls calls s₁) hremove)

omit [ReliableDevice D] in
theorem TakesData.not_conserved {s s' : VfsState (NyfsState D)} (h : TakesData s.drv s'.drv) :
    ¬PoolsConserved s s' := by
  intro hconserved
  have hlt := h.usedSlots_lt
  rw [hconserved.slots] at hlt
  exact lt_irrefl _ hlt

/-- A file or a directory that is made, from any state, and unlinked after any calls costs an entry of
the data of vnodes. -/
theorem create_unlink_leaks (isDir : Bool) (buffer buffer' path : List UInt8) (mode : Nat)
    (calls : List MountCall) (s s₁ s₂ : VfsState (NyfsState D))
    (hmake : makeCall isDir buffer path mode s = (.ok (), s₁))
    (hunlink : Vfs.vfsUnlink nyfsDrivers buffer' path (calls.foldl MountCall.exec s₁) = (.ok (), s₂)) :
    (usedSlots s).vnodeData < (usedSlots s₂).vnodeData ∧ ¬PoolsConserved s s₂ := by
  have htakes := taken_after_unlink hmake hunlink
  exact ⟨htakes.usedSlots_lt, htakes.not_conserved⟩

theorem create_unlink_leaks_tiny : ∃ s s₁ s₂ : VfsState (NyfsState MemoryDisk),
    makeCall false [] [47, 97] 0o644 s = (.ok (), s₁) ∧
      Vfs.vfsUnlink nyfsDrivers [] [47, 97] s₁ = (.ok (), s₂) ∧
      (usedSlots s).vnodeData < (usedSlots s₂).vnodeData ∧ ¬PoolsConserved s s₂ := by
  obtain ⟨v, s₁, kids, ino, nodes, c, -, hcreate, hcached⟩ := tiny_created
  obtain ⟨-, n, hnode, -⟩ := hcached.coherent.shows c (Or.inr ⟨0, hcached.mem⟩)
  obtain ⟨ds, v', nodes', -, -, -, -, -, hunlink⟩ := hcached.vfsUnlink ⟨nameOk_a, by decide⟩ hnode
  exact ⟨freshMount v, s₁, _, hcreate, hunlink,
    create_unlink_leaks false [] [] [47, 97] 0o644 [] (freshMount v) s₁ _ hcreate hunlink⟩

/-- A file is made on a volume that has just been mounted and unlinked again, and the pools are not as
they were. -/
theorem created_file_keeps_slot : ∃ s s₁ s₂ : VfsState (NyfsState MemoryDisk),
    CacheRun (tinyParams 114) ⟨fun _ => 0⟩ 0 (fun _ _ => True) s ∧
      Vfs.vfsCreate nyfsDrivers [] [47, 97] 0o644 s = (.ok (), s₁) ∧
      Vfs.vfsUnlink nyfsDrivers [] [47, 97] s₁ = (.ok (), s₂) ∧ ¬PoolsConserved s s₂ := by
  obtain ⟨v, s₁, kids, ino, nodes, c, hreach, hcreate, hcached⟩ := tiny_created
  obtain ⟨-, n, hnode, -⟩ := hcached.coherent.shows c (Or.inr ⟨0, hcached.mem⟩)
  obtain ⟨ds, v', nodes', -, -, -, -, -, hunlink⟩ := hcached.vfsUnlink ⟨nameOk_a, by decide⟩ hnode
  have hmake : makeCall false [] [47, 97] 0o644 (freshMount v) = (.ok (), s₁) := hcreate
  have hcalls : Vfs.vfsUnlink nyfsDrivers [] [47, 97] (([] : List MountCall).foldl MountCall.exec s₁) =
      _ := hunlink
  exact ⟨freshMount v, s₁, _, cacheRun_freshMount hreach _, hcreate, hunlink,
    (taken_after_unlink hmake hcalls).not_conserved⟩

end Nyfs
end Nyxis
