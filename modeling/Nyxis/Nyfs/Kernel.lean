import Nyxis.Nyfs.Core
import Nyxis.Vfs.Calls

/-!
# The kernel driver

The operations that {lit}`nyfs.c` gives to the virtual file system.  They work on the volumes
through the functions that driver and host library share, and on two pools: the data of the
vnodes and the data of the open files.  A pointer into a pool is the index of its slot.

Main results:

- Definitions {lit}`nyfsLookup`, {lit}`nyfsOpen`, {lit}`nyfsRead`, {lit}`nyfsWrite`,
  {lit}`nyfsClose`, {lit}`nyfsStat`, {lit}`nyfsMake`, {lit}`nyfsUnlink`, {lit}`nyfsReaddir` and
  {lit}`nyfsRename`.
- Definition {lit}`nyfsOps`: the table of operations.
- Definitions {lit}`mountRoot` and {lit}`unmountRoot`: mounting the root directory and taking the mount
  away.
-/

namespace Nyxis
namespace Nyfs

open Vfs

/-! ## Pools -/

def nyfsMaxVnodeData : Nat := 256
def nyfsMaxHandles : Nat := 128

/-- {lit}`nyfs_vnode_data_t`: a volume and an inode on it. -/
structure VnodeData where
  vol : Option Nat
  ino : Nat
deriving DecidableEq

def VnodeData.zero : VnodeData where
  vol := none
  ino := 0

/-- {lit}`nyfs_vnode_slot_t` and {lit}`nyfs_handle_slot_t`. -/
structure DataSlot where
  inUse : Bool
  entry : VnodeData
deriving DecidableEq

/-- The globals of {lit}`nyfs.c`, and the identity of the current process. -/
structure NyfsState (D : Type) where
  volumes : Nat → Volume D
  vnodeData : Nat → DataSlot
  handleSlots : Nat → DataSlot
  cred : Cred

variable {D : Type}

/-- A call of the driver. -/
abbrev KernelM (D : Type) := DriverM (NyfsState D)

/-- Replace the vnode data. -/
def setVnodeData (i : Nat) (slot : DataSlot) : KernelM D Unit :=
  Eff.modify (fun d => { d with
    fs := { d.fs with vnodeData := Function.update d.fs.vnodeData i slot } })

/-- Replace the data of an open file. -/
def setHandleSlot (i : Nat) (slot : DataSlot) : KernelM D Unit :=
  Eff.modify (fun d => { d with
    fs := { d.fs with handleSlots := Function.update d.fs.handleSlots i slot } })

/-- {lit}`nyfs_alloc_vnode_data`, and the stores to the new entry that follow every call. -/
def nyfsAllocVnodeData (entry : VnodeData) : KernelM D (Option Nat) := do
  let slots ← Eff.gets (fun d => d.fs.vnodeData)
  match firstFree (fun i => (slots i).inUse) nyfsMaxVnodeData with
  | none => pure none
  | some i =>
      setVnodeData i ⟨true, entry⟩
      pure (some i)

/-- {lit}`nyfs_alloc_handle_data`, and the stores to the new entry. -/
def nyfsAllocHandleData (entry : VnodeData) : KernelM D (Option Nat) := do
  let slots ← Eff.gets (fun d => d.fs.handleSlots)
  match firstFree (fun i => (slots i).inUse) nyfsMaxHandles with
  | none => pure none
  | some i =>
      setHandleSlot i ⟨true, entry⟩
      pure (some i)

/-- {lit}`nyfs_free_vnode_data`. -/
def nyfsFreeVnodeData : Option Nat → KernelM D Unit
  | none => pure ()
  | some i => if i < nyfsMaxVnodeData then setVnodeData i ⟨false, VnodeData.zero⟩ else pure ()

/-- {lit}`nyfs_free_handle_data`. -/
def nyfsFreeHandleData : Option Nat → KernelM D Unit
  | none => pure ()
  | some i => if i < nyfsMaxHandles then setHandleSlot i ⟨false, VnodeData.zero⟩ else pure ()

/-- Call a function on a volume. -/
def onVolume {α : Type} (k : Nat) (m : NyfsM D α) : KernelM D α :=
  fun d => ((m (d.fs.volumes k)).1, { d with
    fs := { d.fs with volumes := Function.update d.fs.volumes k (m (d.fs.volumes k)).2 } })

/-- The volume and the inode of an entry that is there and has a volume. -/
def requireEntry : Option VnodeData → KernelM D (Nat × Nat)
  | some ⟨some vol, ino⟩ => pure (vol, ino)
  | _ => failWith .NinvalidArg

/-- The data of a vnode. -/
def vnodeEntry (vnode : Nat) : KernelM D (Nat × Nat) := do
  let entry ← Eff.gets (fun d =>
    (d.vnodes vnode).fsPrivate.map (fun i => (d.fs.vnodeData i).entry))
  requireEntry entry

/-- The data of an open file. -/
def handleEntry (handle : Handle) : KernelM D (Nat × Nat) := do
  let entry ← Eff.gets (fun d => handle.fsPrivate.map (fun i => (d.fs.handleSlots i).entry))
  requireEntry entry

/-! ## Operations -/

variable [Device D]

/-- The index of {lit}`g_nyfs_ops` among the drivers. -/
def nyfsDriver : Nat := 0

/-- The type that the virtual file system gives to an inode. -/
def vnodeType (x : Inode) : Nat :=
  if x.type = nyfsInoTypeDir then 2 else 1

/-- The new vnode that {lit}`nyfs_lookup`, {lit}`nyfs_create` and {lit}`nyfs_mkdir` return. -/
def makeVnode (vol ino type : Nat) : KernelM D (Option Nat) := do
  match ← vfsAllocVnode with
  | none => failWith .NoutOfMemory
  | some child =>
      match ← nyfsAllocVnodeData ⟨some vol, ino⟩ with
      | none =>
          vfsFreeVnode (some child)
          failWith .NoutOfMemory
      | some data =>
          vfsInitVnode child ino type nyfsDriver (some data)
          pure (some child)

/-- The part of {lit}`nyfs_lookup` on the volume: the inode of a name and its record. -/
def lookupNode (dirIno : Nat) (name : Name) (cred : Cred) : NyfsM D (Nat × Inode) := do
  let dir ← readDirInode dirIno
  checkAccess dir cred nyfsAceExecute
  let (ino, _) ← dirhashLookup dir name
  let child ← readInode ino
  pure (ino, child)

/-- {lit}`nyfs_lookup`. -/
def nyfsLookup (dir : Nat) (name : Name) : KernelM D (Option Nat) := do
  let (vol, ino) ← vnodeEntry dir
  let cred ← Eff.gets (fun d => d.fs.cred)
  let (childIno, child) ← onVolume vol (lookupNode ino name cred)
  makeVnode vol childIno (vnodeType child)

def nxOpenRead : Nat := 0x1
def nxOpenWrite : Nat := 0x2

/-- The rights that the flags of an open ask for. -/
def requestedMask (flags : Nat) : Nat :=
  (if flags &&& nxOpenRead ≠ 0 then nyfsAceReadData else 0) |||
    (if flags &&& nxOpenWrite ≠ 0 then nyfsAceWriteData else 0)

/-- The part of {lit}`nyfs_open` on the volume. -/
def openNode (ino flags : Nat) (cred : Cred) : NyfsM D Unit := do
  let x ← readInode ino
  checkAccess x cred (requestedMask flags)
  if flags &&& nxOpenWrite ≠ 0 then requireWritable

/-- {lit}`nyfs_open`. -/
def nyfsOpen (vnode flags : Nat) (handle : Handle) : KernelM D Handle := do
  let (vol, ino) ← vnodeEntry vnode
  let cred ← Eff.gets (fun d => d.fs.cred)
  onVolume vol (openNode ino flags cred)
  match ← nyfsAllocHandleData ⟨some vol, ino⟩ with
  | none => failWith .NoutOfMemory
  | some slot => pure { handle with fsPrivate := some slot }

/-- The part of {lit}`nyfs_read` on the volume. -/
def fileRead (ino offset size : Nat) : NyfsM D (List UInt8) := do
  let x ← readInode ino
  inodeRead x offset size

/-- {lit}`nyfs_read`. -/
def nyfsRead (handle : Handle) (size : Nat) : KernelM D (List UInt8) := do
  let (vol, ino) ← handleEntry handle
  onVolume vol (fileRead ino handle.offset size)

/-- The part of {lit}`nyfs_write` on the volume: the access has been checked when the file was
opened. -/
def fileWrite (ino offset : Nat) (bytes : List UInt8) : NyfsM D Nat := do
  requireWritable
  let x ← readInode ino
  inodeWrite ino x offset bytes

/-- {lit}`nyfs_write`. -/
def nyfsWrite (handle : Handle) (bytes : List UInt8) : KernelM D Nat := do
  let (vol, ino) ← handleEntry handle
  onVolume vol (fileWrite ino handle.offset bytes)

omit [Device D] in
/-- {lit}`nyfs_close`. -/
def nyfsClose (handle : Handle) : KernelM D Handle := do
  nyfsFreeHandleData handle.fsPrivate
  pure { handle with fsPrivate := none }

/-- {lit}`nyfs_stat`. -/
def nyfsStat (vnode : Nat) : KernelM D VfsStat := do
  let (vol, ino) ← vnodeEntry vnode
  let x ← onVolume vol (readInode ino)
  pure ⟨x.size, vnodeType x⟩

/-- The common part of {lit}`nyfs_create` and {lit}`nyfs_mkdir`. -/
def nyfsMake (isDir : Bool) (dir : Nat) (name : Name) (mode : Nat) : KernelM D (Option Nat) := do
  let (vol, ino) ← vnodeEntry dir
  let cred ← Eff.gets (fun d => d.fs.cred)
  let newIno ← onVolume vol (makeNode isDir ino name mode cred)
  makeVnode vol newIno (if isDir then 2 else 1)

/-- {lit}`nyfs_create`. -/
def nyfsCreate (dir : Nat) (name : Name) (mode : Nat) : KernelM D (Option Nat) :=
  nyfsMake false dir name mode

/-- {lit}`nyfs_mkdir`. -/
def nyfsMkdir (dir : Nat) (name : Name) (mode : Nat) : KernelM D (Option Nat) :=
  nyfsMake true dir name mode

/-- {lit}`nyfs_unlink`. -/
def nyfsUnlink (dir : Nat) (name : Name) : KernelM D Unit := do
  let (vol, ino) ← vnodeEntry dir
  let cred ← Eff.gets (fun d => d.fs.cred)
  onVolume vol (removeNode ino name cred none)

/-- {lit}`nyfs_readdir`.  The name is cut so that it and its terminator fit. -/
def nyfsReaddir (dir index nameOutMax : Nat) : KernelM D (Name × Nat) := do
  if nameOutMax = 0 then failWith .NinvalidArg
  else
    let (vol, ino) ← vnodeEntry dir
    let cred ← Eff.gets (fun d => d.fs.cred)
    let view ← onVolume vol (readdirNode ino cred index (nameOutMax - 1))
    pure (view.name, view.type)

/-- {lit}`nyfs_rename`. -/
def nyfsRename (oldDir : Nat) (oldName : Name) (newDir : Option Nat) (newName : Name) :
    KernelM D Unit := do
  match newDir with
  | none => failWith .NinvalidArg
  | some newDir =>
      let (oldVol, oldIno) ← vnodeEntry oldDir
      let (newVol, newIno) ← vnodeEntry newDir
      if oldVol ≠ newVol then failWith .Nunsupported
      else
        let cred ← Eff.gets (fun d => d.fs.cred)
        onVolume oldVol (renameNode oldIno oldName newIno newName cred)

/-- {lit}`g_nyfs_ops`. -/
def nyfsOps : VfsOps (NyfsState D) where
  lookup := some nyfsLookup
  openFile := some nyfsOpen
  read := some nyfsRead
  write := some nyfsWrite
  close := some nyfsClose
  stat := some nyfsStat
  create := some nyfsCreate
  mkdir := some nyfsMkdir
  unlink := some nyfsUnlink
  readdir := some nyfsReaddir
  rename := some nyfsRename

/-- The end of {lit}`nyfs_mount`, when the volume has been read: a vnode for the root directory is
mounted at a path. -/
def mountRoot (drivers : Nat → VfsOps (NyfsState D)) (vol : Nat) (buffer path : List UInt8) :
    VfsM (NyfsState D) Unit := do
  match ← callDriver (makeVnode vol nyfsRootIno 2) with
  | none => failWith .NoutOfMemory
  | some root =>
      match ← Eff.attempt (vfsMount drivers buffer path root) with
      | .ok () => pure ()
      | .error e =>
          let data ← Eff.gets (fun v => (v.drv.vnodes root).fsPrivate)
          callDriver (nyfsFreeVnodeData data)
          callDriver (vfsFreeVnode (some root))
          Eff.fail e

/-- {lit}`nyfs_unmount`, of a volume with its mount path and its root vnode: the mount is taken away,
whatever comes of it, and then the root vnode and its data. -/
def unmountRoot (drivers : Nat → VfsOps (NyfsState D)) (buffer mountPath : List UInt8)
    (root : Option Nat) : VfsM (NyfsState D) Unit := do
  if mountPath = [] then pure () else Eff.ignore (vfsUnmount drivers buffer mountPath)
  match root with
  | none => pure ()
  | some root =>
      let data ← Eff.gets (fun v => (v.drv.vnodes root).fsPrivate)
      callDriver (nyfsFreeVnodeData data)
      callDriver (vfsFreeVnode (some root))

/-! ## The pools -/

section Pools

variable {s : Drivers (NyfsState D)}

omit [Device D]

theorem vfsAllocVnode_eq {σ : Type} (s : Drivers σ) :
    vfsAllocVnode s = (.ok (firstFree (fun i => (s.vnodes i).inUse) vfsMaxVnodes),
      match firstFree (fun i => (s.vnodes i).inUse) vfsMaxVnodes with
      | none => s
      | some i => { s with
          vnodes := Function.update s.vnodes i { Vnode.zero with inUse := true } }) := by
  rw [vfsAllocVnode, Eff.bind_ok (Eff.gets_run _ _)]
  cases firstFree (fun i => (s.vnodes i).inUse) vfsMaxVnodes with
  | none => rfl
  | some i => rfl

theorem nyfsAllocVnodeData_eq (s : Drivers (NyfsState D)) (entry : VnodeData) :
    nyfsAllocVnodeData entry s =
      (.ok (firstFree (fun i => (s.fs.vnodeData i).inUse) nyfsMaxVnodeData),
        match firstFree (fun i => (s.fs.vnodeData i).inUse) nyfsMaxVnodeData with
        | none => s
        | some i => { s with fs := { s.fs with
            vnodeData := Function.update s.fs.vnodeData i ⟨true, entry⟩ } }) := by
  rw [nyfsAllocVnodeData, Eff.bind_ok (Eff.gets_run _ _)]
  cases firstFree (fun i => (s.fs.vnodeData i).inUse) nyfsMaxVnodeData with
  | none => rfl
  | some i => rfl

theorem nyfsAllocHandleData_eq (s : Drivers (NyfsState D)) (entry : VnodeData) :
    nyfsAllocHandleData entry s =
      (.ok (firstFree (fun i => (s.fs.handleSlots i).inUse) nyfsMaxHandles),
        match firstFree (fun i => (s.fs.handleSlots i).inUse) nyfsMaxHandles with
        | none => s
        | some i => { s with fs := { s.fs with
            handleSlots := Function.update s.fs.handleSlots i ⟨true, entry⟩ } }) := by
  rw [nyfsAllocHandleData, Eff.bind_ok (Eff.gets_run _ _)]
  cases firstFree (fun i => (s.fs.handleSlots i).inUse) nyfsMaxHandles with
  | none => rfl
  | some i => rfl

/-- There is no free vnode, or no free data for one. -/
def NoVnode (s : Drivers (NyfsState D)) : Prop :=
  firstFree (fun i => (s.vnodes i).inUse) vfsMaxVnodes = none ∨
    firstFree (fun i => (s.fs.vnodeData i).inUse) nyfsMaxVnodeData = none

/-- The state with a new vnode and its data. -/
def withVnode (s : Drivers (NyfsState D)) (child data vol ino type : Nat) : Drivers (NyfsState D) where
  vnodes := Function.update s.vnodes child ⟨ino, type, some nyfsDriver, some data, true⟩
  fs := { s.fs with vnodeData := Function.update s.fs.vnodeData data ⟨true, ⟨some vol, ino⟩⟩ }

/-- A new vnode takes the first free slots of both pools, or one of them is exhausted. -/
theorem makeVnode_cases (s : Drivers (NyfsState D)) (vol ino type : Nat) :
    (∃ child data, firstFree (fun i => (s.vnodes i).inUse) vfsMaxVnodes = some child ∧
      firstFree (fun i => (s.fs.vnodeData i).inUse) nyfsMaxVnodeData = some data ∧
      makeVnode vol ino type s = (.ok (some child), withVnode s child data vol ino type)) ∨
    (NoVnode s ∧ ∃ vnodes, makeVnode vol ino type s =
        (.error (.status .NoutOfMemory), { s with vnodes := vnodes }) ∧
      ∀ i, vnodes i = s.vnodes i ∨ (s.vnodes i).inUse = false ∧ vnodes i = Vnode.zero) := by
  have halloc := vfsAllocVnode_eq s
  cases hvnode : firstFree (fun i => (s.vnodes i).inUse) vfsMaxVnodes with
  | none =>
      rw [hvnode] at halloc
      refine Or.inr ⟨Or.inl hvnode, s.vnodes, ?_, fun i => Or.inl rfl⟩
      rw [makeVnode, Eff.bind_ok halloc]
      rfl
  | some child =>
      rw [hvnode] at halloc
      have hfree : (s.vnodes child).inUse = false := by
        have hfound := List.find?_some hvnode
        simpa using hfound
      have hdatas := nyfsAllocVnodeData_eq { s with
        vnodes := Function.update s.vnodes child { Vnode.zero with inUse := true } } ⟨some vol, ino⟩
      dsimp only at hdatas
      cases hdata : firstFree (fun i => (s.fs.vnodeData i).inUse) nyfsMaxVnodeData with
      | none =>
          rw [hdata] at hdatas
          refine Or.inr ⟨Or.inr hdata, Function.update s.vnodes child Vnode.zero, ?_, ?_⟩
          · rw [makeVnode, Eff.bind_ok halloc]
            dsimp only
            rw [Eff.bind_ok hdatas]
            dsimp only
            rw [Eff.bind_ok (show vfsFreeVnode (some child) _ = (.ok (), _) from rfl)]
            change (_, _) = _
            dsimp only
            rw [Function.update_self, Function.update_idem]
            rfl
          · intro i
            by_cases hi : i = child
            · rw [hi, Function.update_self]
              exact Or.inr ⟨hfree, rfl⟩
            · rw [Function.update_of_ne hi]
              exact Or.inl rfl
      | some data =>
          rw [hdata] at hdatas
          refine Or.inl ⟨child, data, rfl, rfl, ?_⟩
          rw [makeVnode, Eff.bind_ok halloc]
          dsimp only
          rw [Eff.bind_ok hdatas]
          dsimp only
          rw [Eff.bind_ok (show vfsInitVnode child ino type nyfsDriver (some data) _ = (.ok (), _)
            from rfl)]
          change (_, _) = _
          dsimp only
          rw [Function.update_self, Function.update_idem]
          rfl

/-- The data of a vnode names an inode of a volume. -/
structure VnodeOf (s : Drivers (NyfsState D)) (vnode vol ino : Nat) : Prop where
  entry : ∃ slot, (s.vnodes vnode).fsPrivate = some slot ∧
    (s.fs.vnodeData slot).entry = ⟨some vol, ino⟩

theorem VnodeOf.run {vnode vol ino : Nat} (h : VnodeOf s vnode vol ino) :
    vnodeEntry vnode s = (.ok (vol, ino), s) := by
  obtain ⟨slot, hslot, hentry⟩ := h.entry
  change requireEntry ((s.vnodes vnode).fsPrivate.map (fun i => (s.fs.vnodeData i).entry)) s = _
  rw [hslot, Option.map_some, hentry]
  rfl

end Pools

/-- A creation through the kernel creates on the volume and then makes a vnode. -/
theorem nyfsMake_cases {s : Drivers (NyfsState D)} {isDir : Bool} {dir vol parent : Nat} {name : Name}
    {mode : Nat} (h : VnodeOf s dir vol parent) :
    (nyfsMake isDir dir name mode s).2.fs.volumes vol =
        (makeNode isDir parent name mode s.fs.cred (s.fs.volumes vol)).2 ∧
      ((∃ e, (makeNode isDir parent name mode s.fs.cred (s.fs.volumes vol)).1 = .error e ∧
          (nyfsMake isDir dir name mode s).1 = .error e) ∨
        ∃ ino, (makeNode isDir parent name mode s.fs.cred (s.fs.volumes vol)).1 = .ok ino ∧
          ((∃ child, (nyfsMake isDir dir name mode s).1 = .ok (some child)) ∨
            (nyfsMake isDir dir name mode s).1 = .error (.status .NoutOfMemory) ∧ NoVnode s)) := by
  have hstart : nyfsMake isDir dir name mode s =
      (onVolume vol (makeNode isDir parent name mode s.fs.cred) >>= fun newIno =>
        makeVnode vol newIno (if isDir then 2 else 1)) s := by
    rw [nyfsMake, Eff.bind_ok h.run]
    rfl
  rcases hmake : makeNode isDir parent name mode s.fs.cred (s.fs.volumes vol) with ⟨r, w⟩
  have hon : onVolume vol (makeNode isDir parent name mode s.fs.cred) s =
      (r, { s with fs := { s.fs with volumes := Function.update s.fs.volumes vol w } }) := by
    rw [onVolume, hmake]
  rw [hstart]
  cases r with
  | error e =>
      rw [Eff.bind_error hon]
      exact ⟨Function.update_self .., Or.inl ⟨e, rfl, rfl⟩⟩
  | ok ino =>
      rw [Eff.bind_ok hon]
      rcases makeVnode_cases { s with
          fs := { s.fs with volumes := Function.update s.fs.volumes vol w } } vol ino
          (if isDir then 2 else 1) with ⟨child, data, -, -, hrun⟩ | ⟨hno, vnodes, hrun, -⟩
      · rw [hrun]
        exact ⟨Function.update_self .., Or.inr ⟨ino, rfl, Or.inl ⟨child, rfl⟩⟩⟩
      · rw [hrun]
        exact ⟨Function.update_self .., Or.inr ⟨ino, rfl, Or.inr ⟨rfl, hno⟩⟩⟩

end Nyfs
end Nyxis
