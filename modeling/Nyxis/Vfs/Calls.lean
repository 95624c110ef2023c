import Nyxis.Vfs.Path

/-!
# The virtual file system

The calls of {lit}`drivers/filesystem/vfs.c`: namespaces, the dentry tree that
caches path lookups, and the dispatch to file-system drivers.

Dentries, vnodes and namespaces are slots of fixed tables, a pointer to one is its
index, and the null pointer is {lit}`none`.  A driver is a record of optional
operations over the vnode table and the drivers' own state.  The slots of the
handle table are given back within the call that takes them, so a handle is
the value that {lit}`vfs_open` copies to its caller.  Loops over the dentry tree
carry a fuel that covers every chain of distinct slots; running out of it is the
outcome {lit}`hang`.
-/

namespace Nyxis
namespace Vfs

/-! ## Data -/

def vfsMaxDentries : Nat := 64
def vfsMaxVnodes : Nat := 128
def vfsMaxNamespaces : Nat := 16

/-- {lit}`struct vnode`.  The operations are named by the index of their driver. -/
structure Vnode where
  inodeId : Nat
  type : Nat
  ops : Option Nat
  fsPrivate : Option Nat
  inUse : Bool
deriving DecidableEq

/-- {lit}`struct dentry`. -/
structure Dentry where
  name : Name
  node : Option Nat
  parent : Option Nat
  firstChild : Option Nat
  nextSibling : Option Nat
  inUse : Bool
deriving DecidableEq

/-- {lit}`vfs_namespace_t`. -/
structure Namespace where
  name : Name
  root : Nat
  cwd : Nat
  inUse : Bool
deriving DecidableEq

/-- {lit}`handle_t`. -/
structure Handle where
  vnode : Option Nat
  offset : Nat
  flags : Nat
  fsPrivate : Option Nat
deriving DecidableEq

/-- {lit}`vfs_stat_t`. -/
structure VfsStat where
  size : Nat
  type : Nat
deriving DecidableEq

def Vnode.zero : Vnode where
  inodeId := 0
  type := 0
  ops := none
  fsPrivate := none
  inUse := false

def Dentry.zero : Dentry where
  name := []
  node := none
  parent := none
  firstChild := none
  nextSibling := none
  inUse := false

def Namespace.zero : Namespace where
  name := []
  root := 0
  cwd := 0
  inUse := false

/-- What drivers work on: the vnode table and their own state. -/
structure Drivers (σ : Type) where
  vnodes : Nat → Vnode
  fs : σ

abbrev DriverM (σ : Type) := Eff Stop (Drivers σ)

/-- {lit}`vfs_ops_t`: the operations of a driver, each of which may be missing.  The
vnode that a lookup or a creation returns may be null. -/
structure VfsOps (σ : Type) where
  lookup : Option (Nat → Name → DriverM σ (Option Nat))
  openFile : Option (Nat → Nat → Handle → DriverM σ Handle)
  read : Option (Handle → Nat → DriverM σ (List UInt8))
  write : Option (Handle → List UInt8 → DriverM σ Nat)
  close : Option (Handle → DriverM σ Handle)
  stat : Option (Nat → DriverM σ VfsStat)
  create : Option (Nat → Name → Nat → DriverM σ (Option Nat))
  mkdir : Option (Nat → Name → Nat → DriverM σ (Option Nat))
  unlink : Option (Nat → Name → DriverM σ Unit)
  readdir : Option (Nat → Nat → Nat → DriverM σ (Name × Nat))
  rename : Option (Nat → Name → Option Nat → Name → DriverM σ Unit)

/-- The globals of {lit}`vfs.c` and the drivers below it. -/
structure VfsState (σ : Type) where
  dentries : Nat → Dentry
  namespaces : Nat → Namespace
  defaultNamespace : Option Nat
  drv : Drivers σ

abbrev VfsM (σ : Type) := Eff Stop (VfsState σ)

variable {σ : Type}

/-- The first free slot of a table. -/
def firstFree (inUse : Nat → Bool) (count : Nat) : Option Nat :=
  (List.range count).find? (fun i => !inUse i)

/-- Update one dentry. -/
def setDentry (i : Nat) (f : Dentry → Dentry) : VfsM σ Unit :=
  Eff.modify (fun v => { v with dentries := Function.update v.dentries i (f (v.dentries i)) })

/-- Update one namespace. -/
def setNamespace (i : Nat) (f : Namespace → Namespace) : VfsM σ Unit :=
  Eff.modify (fun v => { v with namespaces := Function.update v.namespaces i (f (v.namespaces i)) })

/-- Call a driver. -/
def callDriver {α : Type} (c : DriverM σ α) : VfsM σ α :=
  fun v => ((c v.drv).1, { v with drv := (c v.drv).2 })

/-! ## Vnodes -/

/-- {lit}`vfs_alloc_vnode`. -/
def vfsAllocVnode : DriverM σ (Option Nat) := do
  let vnodes ← Eff.gets Drivers.vnodes
  match firstFree (fun i => (vnodes i).inUse) vfsMaxVnodes with
  | none => pure none
  | some i =>
      Eff.modify (fun d => { d with
        vnodes := Function.update d.vnodes i { Vnode.zero with inUse := true } })
      pure (some i)

/-- {lit}`vfs_init_vnode`. -/
def vfsInitVnode (vnode inodeId type ops : Nat) (fsPrivate : Option Nat) : DriverM σ Unit :=
  Eff.modify (fun d => { d with
    vnodes := Function.update d.vnodes vnode { d.vnodes vnode with
      inodeId := inodeId, type := type, ops := some ops, fsPrivate := fsPrivate } })

/-- {lit}`vfs_free_vnode`. -/
def vfsFreeVnode : Option Nat → DriverM σ Unit
  | none => pure ()
  | some i => Eff.modify (fun d => { d with
      vnodes := Function.update d.vnodes i { d.vnodes i with
        inUse := false, ops := none, fsPrivate := none } })

/-- The operations of the vnode that a pointer names, if it is not null and has
any. -/
def opsOf (drivers : Nat → VfsOps σ) (v : VfsState σ) : Option Nat → Option (Nat × VfsOps σ)
  | none => none
  | some i => (v.drv.vnodes i).ops.map (fun k => (i, drivers k))

/-! ## The dentry tree -/

/-- {lit}`alloc_dentry`. -/
def allocDentry (name : Name) (node parent : Option Nat) : VfsM σ (Option Nat) := do
  let dentries ← Eff.gets VfsState.dentries
  match firstFree (fun i => (dentries i).inUse) vfsMaxDentries with
  | none => pure none
  | some i =>
      setDentry i (fun _ => { Dentry.zero with
        name := name.take vfsNameMax, node := node, parent := parent, inUse := true })
      pure (some i)

/-- {lit}`free_dentry`: everything but the name is cleared. -/
def freeDentry (d : Nat) : VfsM σ Unit :=
  setDentry d (fun e => { Dentry.zero with name := e.name })

/-- {lit}`attach_child`. -/
def attachChild (parent child : Nat) : VfsM σ Unit := do
  let head ← Eff.gets (fun v => (v.dentries parent).firstChild)
  setDentry child (fun e => { e with nextSibling := head })
  setDentry parent (fun e => { e with firstChild := some child })

/-- The loop of {lit}`detach_child`. -/
def detachLoop (parent child : Nat) : (fuel : Nat) → (current previous : Option Nat) → VfsM σ Unit
  | _, none, _ => pure ()
  | 0, some _, _ => Eff.fail .hang
  | fuel + 1, some c, previous => do
      let next ← Eff.gets (fun v => (v.dentries c).nextSibling)
      if c = child then
        match previous with
        | some p => setDentry p (fun e => { e with nextSibling := next })
        | none => setDentry parent (fun e => { e with firstChild := next })
        setDentry c (fun e => { e with nextSibling := none })
      else
        detachLoop parent child fuel next (some c)

/-- {lit}`detach_child`. -/
def detachChild (parent child : Nat) : VfsM σ Unit := do
  let head ← Eff.gets (fun v => (v.dentries parent).firstChild)
  detachLoop parent child vfsMaxDentries head none

/-- The loop of {lit}`find_child`. -/
def findLoop (dentries : Nat → Dentry) (name : Name) :
    (fuel : Nat) → Option Nat → Except Stop (Option Nat)
  | _, none => .ok none
  | 0, some _ => .error .hang
  | fuel + 1, some c =>
      if (dentries c).name = name then .ok (some c)
      else findLoop dentries name fuel (dentries c).nextSibling

/-- {lit}`find_child`. -/
def findChild (parent : Nat) (name : Name) : VfsM σ (Option Nat) :=
  fun v => (findLoop v.dentries name vfsMaxDentries (v.dentries parent).firstChild, v)

/-! ## Namespaces -/

/-- {lit}`find_namespace`. -/
def findNamespace (namespaces : Nat → Namespace) (name : Name) : Option Nat :=
  (List.range vfsMaxNamespaces).find? (fun i =>
    (namespaces i).inUse && decide ((namespaces i).name = name))

/-- {lit}`create_namespace`. -/
def createNamespace (name : Name) (root : Nat) : VfsM σ (Option Nat) := do
  let namespaces ← Eff.gets VfsState.namespaces
  match firstFree (fun i => (namespaces i).inUse) vfsMaxNamespaces with
  | none => pure none
  | some i =>
      setNamespace i (fun _ =>
        { name := name.take vfsNameMax, root := root, cwd := root, inUse := true })
      pure (some i)

/-- {lit}`get_namespace`. -/
def getNamespace (name : Name) (create : Bool) : VfsM σ (Option Nat) := do
  if name = [] then
    Eff.gets VfsState.defaultNamespace
  else
    let namespaces ← Eff.gets VfsState.namespaces
    let ns := findNamespace namespaces name
    if ns.isSome ∨ create = false then
      pure ns
    else
      match ← allocDentry [] none none with
      | none => pure none
      | some root =>
          match ← createNamespace name root with
          | none =>
              freeDentry root
              pure none
          | some ns => pure (some ns)

/-- {lit}`resolve_namespace_path`.  The name buffer on the stack is not initialised,
so its content is an argument. -/
def resolveNamespacePath (buffer path : List UInt8) (createNs : Bool) :
    VfsM σ (Nat × List UInt8) := do
  match parseNamespacePath buffer path with
  | .error e => failWith e
  | .ok (name, localPath) =>
      match ← getNamespace name createNs with
      | none => failWith .NnotFound
      | some ns => pure (ns, localPath)

/-! ## Path resolution -/

/-- One step of the resolvers: the cached child, or else the driver's answer, which
is entered into the cache.  The two resolvers report a directory without a lookup
operation by different codes. -/
def childStep (drivers : Nat → VfsOps σ) (missing : Nstatus) (current : Nat) (name : Name) :
    VfsM σ Nat := do
  match ← findChild current name with
  | some child => pure child
  | none =>
      let ops ← Eff.gets (fun v => opsOf drivers v (v.dentries current).node)
      match ops with
      | none => failWith missing
      | some (dir, ops) =>
          match ops.lookup with
          | none => failWith missing
          | some lookup =>
              match ← callDriver (lookup dir name) with
              | none => failWith missing
              | some vnode =>
                  match ← allocDentry name (some vnode) (some current) with
                  | none =>
                      callDriver (vfsFreeVnode (some vnode))
                      failWith .NoutOfMemory
                  | some child =>
                      attachChild current child
                      pure child

/-- The dentry at which a path of a namespace starts. -/
def startOf (ns : Namespace) (path : List UInt8) : Nat :=
  if path.head? = some slash then ns.root else ns.cwd

/-- The cursor at which the resolvers start: one leading slash is skipped. -/
def startCursor (path : List UInt8) : List UInt8 :=
  if path.head? = some slash then path.tail else path

/-- The loop of {lit}`resolve_path_internal_ns`.  Each round shortens the cursor, so a
fuel of its length is never used up. -/
def resolveLoop (drivers : Nat → VfsOps σ) :
    (fuel : Nat) → (current : Nat) → (cursor : List UInt8) → VfsM σ Nat
  | 0, current, _ => pure current
  | fuel + 1, current, cursor =>
      if cursor = [] then pure current
      else
        match parseSegment cursor with
        | .error e => failWith e
        | .ok (name, rest) =>
            if name = [] then pure current
            else do
              let child ← childStep drivers .NfileNotFound current name
              resolveLoop drivers fuel child rest

/-- {lit}`resolve_path_internal_ns`. -/
def resolvePathInternalNs (drivers : Nat → VfsOps σ) (ns : Nat) (path : List UInt8) :
    VfsM σ Nat := do
  let space ← Eff.gets (fun v => v.namespaces ns)
  resolveLoop drivers (startCursor path).length (startOf space path) (startCursor path)

/-- {lit}`resolve_path_internal`. -/
def resolvePathInternal (drivers : Nat → VfsOps σ) (buffer path : List UInt8) : VfsM σ Nat := do
  let (ns, localPath) ← resolveNamespacePath buffer path false
  resolvePathInternalNs drivers ns localPath

/-- The loop of {lit}`resolve_parent_ns`: the parent and the last component, or the
dentry and the cursor at which the loop ended without one. -/
def parentLoop (drivers : Nat → VfsOps σ) :
    (fuel : Nat) → (current : Nat) → (cursor : List UInt8) →
      VfsM σ (Nat × (Name ⊕ List UInt8))
  | 0, current, cursor => pure (current, .inr cursor)
  | fuel + 1, current, cursor =>
      if cursor = [] then pure (current, .inr cursor)
      else
        match parseSegment cursor with
        | .error e => failWith e
        | .ok (name, rest) =>
            if name = [] then pure (current, .inr rest)
            else if skipSlashes rest = [] then pure (current, .inl name)
            else do
              let child ← childStep drivers .NnotFound current name
              parentLoop drivers fuel child (skipSlashes rest)

/-- {lit}`resolve_parent_ns`: the directory of a path and its last component. -/
def resolveParentNs (drivers : Nat → VfsOps σ) (ns : Nat) (path : List UInt8) :
    VfsM σ (Nat × Name) := do
  let space ← Eff.gets (fun v => v.namespaces ns)
  match ← parentLoop drivers (startCursor path).length (startOf space path) (startCursor path) with
  | (current, .inl name) => pure (current, name)
  | (current, .inr cursor) =>
      if cursor.length = path.length ∨ path = [] then pure (current, [])
      else failWith .NnotFound

/-! ## Namespaces and mounts -/

/-- {lit}`vfs_init`. -/
def vfsInit : VfsM σ Unit := do
  Eff.modify (fun v => { v with namespaces := fun _ => Namespace.zero })
  match ← allocDentry [] none none with
  | none => failWith .NoutOfMemory
  | some root =>
      let ns ← createNamespace [] root
      Eff.modify (fun v => { v with defaultNamespace := ns })
      match ns with
      | none =>
          freeDentry root
          failWith .NoutOfMemory
      | some _ => pure ()

/-- {lit}`vfs_register_namespace`. -/
def vfsRegisterNamespace (drivers : Nat → VfsOps σ) (buffer : List UInt8) (name : Name)
    (sourcePath : List UInt8) : VfsM σ Unit := do
  let (sourceNs, localPath) ← resolveNamespacePath buffer sourcePath false
  let root ← resolvePathInternalNs drivers sourceNs localPath
  match ← getNamespace name true with
  | none => failWith .NtooManyFileSystem
  | some target => setNamespace target (fun ns => { ns with root := root, cwd := root })

/-- A local path that denotes the root of its namespace. -/
def isRootPath (path : List UInt8) : Bool :=
  decide (path = [slash]) || decide (path = [])

/-- {lit}`vfs_mount`, of a file system with the given root vnode. -/
def vfsMount (drivers : Nat → VfsOps σ) (buffer path : List UInt8) (fsRoot : Nat) :
    VfsM σ Unit := do
  if path = [] then failWith .NinvalidArg
  else
    let (ns, localPath) ← resolveNamespacePath buffer path true
    if isRootPath localPath then
      let root ← Eff.gets (fun v => (v.namespaces ns).root)
      let node ← Eff.gets (fun v => (v.dentries root).node)
      if node.isSome then failWith .NalreadyExists
      else setDentry root (fun e => { e with node := some fsRoot })
    else
      let (parent, mountName) ← resolveParentNs drivers ns localPath
      if mountName = [] then failWith .NinvalidArg
      else
        match ← findChild parent mountName with
        | some existing =>
            let node ← Eff.gets (fun v => (v.dentries existing).node)
            if node.isSome then failWith .NalreadyExists
            else setDentry existing (fun e => { e with node := some fsRoot })
        | none =>
            match ← allocDentry mountName (some fsRoot) (some parent) with
            | none => failWith .NoutOfMemory
            | some child => attachChild parent child

/-- {lit}`vfs_unmount`. -/
def vfsUnmount (drivers : Nat → VfsOps σ) (buffer path : List UInt8) : VfsM σ Unit := do
  if path = [] then failWith .NinvalidArg
  else
    let (ns, localPath) ← resolveNamespacePath buffer path false
    if isRootPath localPath then
      let root ← Eff.gets (fun v => (v.namespaces ns).root)
      let node ← Eff.gets (fun v => (v.dentries root).node)
      if node.isNone then failWith .NnotFound
      else setDentry root (fun e => { e with node := none })
    else
      let mountPoint ← resolvePathInternalNs drivers ns localPath
      let entry ← Eff.gets (fun v => v.dentries mountPoint)
      if entry.node.isNone then failWith .NnotFound
      else
        match entry.parent with
        | some parent =>
            detachChild parent mountPoint
            freeDentry mountPoint
        | none => setDentry mountPoint (fun e => { e with node := none })

/-! ## Files -/

/-- {lit}`vfs_open`. -/
def vfsOpen (drivers : Nat → VfsOps σ) (buffer path : List UInt8) (flags : Nat) :
    VfsM σ Handle := do
  let target ← resolvePathInternal drivers buffer path
  let ops ← Eff.gets (fun v => opsOf drivers v (v.dentries target).node)
  match ops with
  | none => failWith .Nunsupported
  | some (node, ops) =>
      match ops.openFile with
      | none => failWith .Nunsupported
      | some openFile =>
          callDriver (openFile node flags
            { vnode := some node, offset := 0, flags := flags, fsPrivate := none })

/-- {lit}`vfs_read`: the bytes read and the advanced handle. -/
def vfsRead (drivers : Nat → VfsOps σ) (handle : Handle) (size : Nat) :
    VfsM σ (List UInt8 × Handle) := do
  let ops ← Eff.gets (fun v => opsOf drivers v handle.vnode)
  match ops with
  | none => failWith .Nunsupported
  | some (_, ops) =>
      match ops.read with
      | none => failWith .Nunsupported
      | some read =>
          let bytes ← callDriver (read handle size)
          pure (bytes, { handle with offset := (handle.offset + bytes.length) % 2 ^ 64 })

/-- {lit}`vfs_write`: the number of bytes written and the advanced handle. -/
def vfsWrite (drivers : Nat → VfsOps σ) (handle : Handle) (bytes : List UInt8) :
    VfsM σ (Nat × Handle) := do
  let ops ← Eff.gets (fun v => opsOf drivers v handle.vnode)
  match ops with
  | none => failWith .Nunsupported
  | some (_, ops) =>
      match ops.write with
      | none => failWith .Nunsupported
      | some write =>
          let written ← callDriver (write handle bytes)
          pure (written, { handle with offset := (handle.offset + written) % 2 ^ 64 })

/-- A handle that {lit}`free_handle` has cleared. -/
def Handle.cleared : Handle where
  vnode := none
  offset := 0
  flags := 0
  fsPrivate := none

/-- {lit}`vfs_close`. -/
def vfsClose (drivers : Nat → VfsOps σ) (handle : Handle) : VfsM σ Handle := do
  let ops ← Eff.gets (fun v => opsOf drivers v handle.vnode)
  match ops with
  | none => failWith .Nunsupported
  | some (_, ops) =>
      match ops.close with
      | none => failWith .Nunsupported
      | some close =>
          let _ ← callDriver (close handle)
          pure Handle.cleared

/-- {lit}`vfs_fstat`. -/
def vfsFstat (drivers : Nat → VfsOps σ) (handle : Handle) : VfsM σ VfsStat := do
  let ops ← Eff.gets (fun v => opsOf drivers v handle.vnode)
  match ops with
  | none => failWith .Nunsupported
  | some (node, ops) =>
      match ops.stat with
      | none => failWith .Nunsupported
      | some stat => callDriver (stat node)

/-- {lit}`vfs_reopen`. -/
def vfsReopen (drivers : Nat → VfsOps σ) (handle : Handle) : VfsM σ Handle := do
  let ops ← Eff.gets (fun v => opsOf drivers v handle.vnode)
  match ops with
  | none => failWith .NinvalidArg
  | some (node, ops) =>
      match ops.openFile with
      | none => failWith .NinvalidArg
      | some openFile =>
          callDriver (openFile node handle.flags { handle with fsPrivate := none })

/-! ## Directories -/

/-- The common part of {lit}`vfs_create` and {lit}`vfs_mkdir`, which differ in the
driver operation they call. -/
def makeEntry (drivers : Nat → VfsOps σ)
    (make : VfsOps σ → Option (Nat → Name → Nat → DriverM σ (Option Nat)))
    (buffer path : List UInt8) (mode : Nat) : VfsM σ Unit := do
  if path = [] then failWith .NinvalidArg
  else
    let (ns, localPath) ← resolveNamespacePath buffer path false
    let (parent, name) ← resolveParentNs drivers ns localPath
    if name = [] then failWith .NinvalidArg
    else
      let ops ← Eff.gets (fun v => opsOf drivers v (v.dentries parent).node)
      match ops with
      | none => failWith .Nunsupported
      | some (dir, ops) =>
          match make ops with
          | none => failWith .Nunsupported
          | some create =>
              let existing ← findChild parent name
              let dentries ← Eff.gets VfsState.dentries
              if existing.any (fun e => (dentries e).node.isSome) then
                failWith .NalreadyExists
              else
                let child ← callDriver (create dir name mode)
                match existing with
                | some e => setDentry e (fun d => { d with node := child })
                | none =>
                    match ← allocDentry name child (some parent) with
                    | none =>
                        callDriver (vfsFreeVnode child)
                        failWith .NoutOfMemory
                    | some new => attachChild parent new

/-- {lit}`vfs_create`. -/
def vfsCreate (drivers : Nat → VfsOps σ) (buffer path : List UInt8) (mode : Nat) : VfsM σ Unit :=
  makeEntry drivers VfsOps.create buffer path mode

/-- {lit}`vfs_mkdir`. -/
def vfsMkdir (drivers : Nat → VfsOps σ) (buffer path : List UInt8) (mode : Nat) : VfsM σ Unit :=
  makeEntry drivers VfsOps.mkdir buffer path mode

/-- Take a cached dentry out of the tree, with its vnode, as {lit}`vfs_unlink` and
{lit}`vfs_rename` do. -/
def dropDentry (parent d : Nat) : VfsM σ Unit := do
  detachChild parent d
  let node ← Eff.gets (fun v => (v.dentries d).node)
  callDriver (vfsFreeVnode node)
  freeDentry d

/-- {lit}`vfs_unlink`. -/
def vfsUnlink (drivers : Nat → VfsOps σ) (buffer path : List UInt8) : VfsM σ Unit := do
  if path = [] then failWith .NinvalidArg
  else
    let (ns, localPath) ← resolveNamespacePath buffer path false
    let (parent, name) ← resolveParentNs drivers ns localPath
    if name = [] then failWith .NinvalidArg
    else
      let ops ← Eff.gets (fun v => opsOf drivers v (v.dentries parent).node)
      match ops with
      | none => failWith .Nunsupported
      | some (dir, ops) =>
          match ops.unlink with
          | none => failWith .Nunsupported
          | some unlink =>
              callDriver (unlink dir name)
              match ← findChild parent name with
              | none => pure ()
              | some existing => dropDentry parent existing

/-- {lit}`vfs_readdir`. -/
def vfsReaddir (drivers : Nat → VfsOps σ) (buffer path : List UInt8) (index nameMax : Nat) :
    VfsM σ (Name × Nat) := do
  if nameMax = 0 then failWith .NinvalidArg
  else
    let target ← resolvePathInternal drivers buffer path
    let ops ← Eff.gets (fun v => opsOf drivers v (v.dentries target).node)
    match ops with
    | none => failWith .Nunsupported
    | some (node, ops) =>
        match ops.readdir with
        | none => failWith .Nunsupported
        | some readdir => callDriver (readdir node index nameMax)

/-- The loop of {lit}`vfs_rename` that looks for a dentry among another one and its
parents. -/
def isAncestor (dentries : Nat → Dentry) (d : Nat) : (fuel : Nat) → Option Nat → Except Stop Bool
  | _, none => .ok false
  | 0, some _ => .error .hang
  | fuel + 1, some walk =>
      if walk = d then .ok true else isAncestor dentries d fuel (dentries walk).parent

/-- The check of {lit}`vfs_rename` that a cached directory is not moved below itself. -/
def checkNoCycle (moved : Option Nat) (newParent : Nat) : VfsM σ Unit :=
  match moved with
  | none => pure ()
  | some d => do
      let dentries ← Eff.gets VfsState.dentries
      match isAncestor dentries d vfsMaxDentries (some newParent) with
      | .error stop => Eff.fail stop
      | .ok true => failWith .NinvalidArg
      | .ok false => pure ()

/-- Move a cached dentry to its new place. -/
def moveDentry (oldParent newParent d : Nat) (newName : Name) : VfsM σ Unit := do
  detachChild oldParent d
  setDentry d (fun e => { e with name := newName.take vfsNameMax, parent := some newParent })
  attachChild newParent d

/-- {lit}`vfs_rename`. -/
def vfsRename (drivers : Nat → VfsOps σ) (oldBuffer newBuffer oldPath newPath : List UInt8) :
    VfsM σ Unit := do
  if oldPath = [] ∨ newPath = [] then failWith .NinvalidArg
  else
    let (oldNs, oldLocal) ← resolveNamespacePath oldBuffer oldPath false
    let (newNs, newLocal) ← resolveNamespacePath newBuffer newPath false
    if oldNs ≠ newNs then failWith .Nunsupported
    else
      let (oldParent, oldName) ← resolveParentNs drivers oldNs oldLocal
      let (newParent, newName) ← resolveParentNs drivers newNs newLocal
      if oldName = [] ∨ newName = [] then failWith .NinvalidArg
      else
        let ops ← Eff.gets (fun v => opsOf drivers v (v.dentries oldParent).node)
        match ops with
        | none => failWith .Nunsupported
        | some (oldDir, ops) =>
            match ops.rename with
            | none => failWith .Nunsupported
            | some rename =>
                let existingOld ← findChild oldParent oldName
                checkNoCycle existingOld newParent
                let newDir ← Eff.gets (fun v => (v.dentries newParent).node)
                callDriver (rename oldDir oldName newDir newName)
                match ← findChild newParent newName with
                | some existingNew => dropDentry newParent existingNew
                | none => pure ()
                match existingOld with
                | some d => moveDentry oldParent newParent d newName
                | none => pure ()

end Vfs
end Nyxis
