import Nyxis.Nyfs.Release
import Nyxis.Nyfs.Sessions

/-!
# Handles and the files that they were opened on

The number of an inode comes back when the inode has been removed and another one is made.  The
allocations of every inode are counted along a run, and a file is an inode number with its count.  Files
are opened, read, written and closed through handles while other files are made and unlinked, and a handle
stands for the file that it was opened on until that file has been removed.

Main results:

- Theorem {lit}`Sound.fileWrite_others`: a write leaves the other inodes.
- Theorem {lit}`HandleSession.Holds.step`: every handle leads to the inode of its file.
- Theorem {lit}`open_files_isolated`: what is written and read through a handle.
- Theorem {lit}`write_through_removed_file`: a write that ends in another file.
-/

namespace Nyxis
namespace Nyfs

open Vfs (VfsState Drivers Handle Name cachedChild)

variable {D : Type} [ReliableDevice D] {L : Layout} {v : Volume D} {nodes : Nat → Node}
variable {k r i j : Nat}

/-! ## What a write leaves -/

/-- The bytes of a file. -/
def fileContent (i : Nat) (v : Volume D) : Except Stop (List UInt8) :=
  (fileRead i 0 (v.view.inode i).size v).1

/-- An inode is the same on two volumes: its record, its access control list, its bytes and its
names. -/
structure SameFile (v v' : Volume D) (j : Nat) : Prop where
  inodeBit : v'.view.inodeBit j = v.view.inodeBit j
  inode : v'.view.inode j = v.view.inode j
  aces : (v'.view.inode j).aces v'.view = (v.view.inode j).aces v.view
  bytes : ∀ off size, (fileRead j off size v').1 = (fileRead j off size v).1
  names : ∀ name t, (∃ x, (lookupNode j name ⟨0, 0⟩ v').1 = .ok (t, x)) ↔
    ∃ x, (lookupNode j name ⟨0, 0⟩ v).1 = .ok (t, x)

theorem SameFile.refl (v : Volume D) (j : Nat) : SameFile v v j :=
  ⟨rfl, rfl, rfl, fun _ _ => rfl, fun _ _ => Iff.rfl⟩

/-- The superuser's lookups, on a volume whose directories are known. -/
theorem Sound.lookupNode_iff (h : Sound L v nodes) (hj : Live L v.view j) (name : Name) (t : Nat) :
    (∃ x, (lookupNode j name ⟨0, 0⟩ v).1 = .ok (t, x)) ↔
      ∃ type, (nodes j).find name = some (t, type) := by
  constructor
  · rintro ⟨x, hlookup⟩
    exact ((h.lookupNode_eq_ok hj).mp hlookup).1.find
  · rintro ⟨type, hfind⟩
    exact ⟨_, h.lookupNode_root hj hfind⟩

/-- A write to one inode leaves the others. -/
theorem Sound.fileWrite_others (h : Sound L v nodes) (hi : Live L v.view i) (hj : Live L v.view j)
    (hne : j ≠ i) (off : Nat) (bytes : List UInt8) : SameFile v (fileWrite i off bytes v).2 j := by
  obtain ⟨nodes', hsound, htouches, hinodes, -⟩ := h.fileWrite_step hi off bytes
  have hkept := htouches.others j hj hne
  refine ⟨congrFun htouches.inodeBit j, hinodes j hne, hkept.aces (h.inventory.holds j hj), ?_, ?_⟩
  · intro off' size
    rw [hsound.fileRead hkept.live, h.fileRead hj,
      (hkept.sameData hj).content_eq (Inode.size_of_core hkept.core)]
  · intro name t
    rw [hsound.lookupNode_iff hkept.live, h.lookupNode_iff hj, htouches.finds]

/-- A read returns a part of the bytes of its file. -/
theorem Sound.fileRead_content (h : Sound L v nodes) (hi : Live L v.view i) (off size : Nat) :
    ∃ content, fileContent i v = .ok content ∧
      (Nyfs.fileRead i off size v).1 = .ok ((content.drop off).take size) := by
  refine ⟨(nodes i).content L v.view (v.view.inode i), ?_, h.fileRead hi off size⟩
  have hlen := Node.length_content L v.view (nodes i) (v.view.inode i)
  rw [fileContent, h.fileRead hi, List.drop_zero, List.take_of_length_le (by omega)]

/-! ## Files and handles -/

/-- A file: the number of its inode, and how often that inode has been allocated. -/
structure FileId where
  ino : Nat
  birth : Nat
deriving DecidableEq, Repr

/-- The state of the virtual file system, the counts of the allocations of the inodes of a volume, and
the handles with the files that they were opened on. -/
structure HandleSession (D : Type) where
  vfs : VfsState (NyfsState D)
  births : Nat → Nat
  held : List (Handle × Option FileId)

/-- A call that opens, reads, writes or closes a file, or makes or unlinks one, or a change of the process
that makes the calls.  The open files are named by their places among the handles. -/
inductive HandleCall
  | openFile (buffer path : List UInt8) (flags : Nat)
  | read (place size : Nat)
  | write (place : Nat) (bytes : List UInt8)
  | close (place : Nat)
  | create (buffer path : List UInt8) (mode : Nat)
  | unlink (buffer path : List UInt8)
  | become (cred : Cred)

/-- The values of a credential are those of its C type. -/
def HandleCall.Fits : HandleCall → Prop
  | become cred => cred.Fits
  | _ => True

/-- The file that has an inode. -/
def HandleSession.fileAt (s : HandleSession D) (i : Nat) : FileId :=
  ⟨i, s.births i⟩

/-- The file that a path has on the volume. -/
def HandleSession.fileOf (k : Nat) (s : HandleSession D) (buffer path : List UInt8) : Option FileId :=
  (Vfs.namespaceOf s.vfs buffer path).bind (fun place =>
    (diskNode (s.vfs.drv.fs.volumes k) place.2).map s.fileAt)

/-- The session behind a call: an inode that the call has allocated has been allocated once more. -/
def HandleSession.behind (k : Nat) (s : HandleSession D) (v : VfsState (NyfsState D))
    (held : List (Handle × Option FileId)) : HandleSession D where
  vfs := v
  births := fun i =>
    if (v.drv.fs.volumes k).view.inodeBit i && !(s.vfs.drv.fs.volumes k).view.inodeBit i then
      s.births i + 1
    else
      s.births i
  held := held

/-- A call that leaves the volumes allocates no inode. -/
theorem HandleSession.behind_same {s : HandleSession D} {v : VfsState (NyfsState D)}
    {held : List (Handle × Option FileId)} (hvolumes : v.drv.fs.volumes = s.vfs.drv.fs.volumes) :
    s.behind k v held = ⟨v, s.births, held⟩ := by
  have hbirths : (s.behind k v held).births = s.births := by
    funext i
    rw [HandleSession.behind]
    dsimp only
    rw [hvolumes, Bool.and_not_self]
    rfl
  rw [← hbirths]
  rfl

/-- One call of a session. -/
def HandleSession.step (k : Nat) (s : HandleSession D) : HandleCall → HandleSession D
  | .openFile buffer path flags =>
      match Vfs.vfsOpen nyfsDrivers buffer path flags s.vfs with
      | (.ok g, v) => s.behind k v ((g, s.fileOf k buffer path) :: s.held)
      | (.error _, v) => s.behind k v s.held
  | .read place size =>
      match s.held[place]? with
      | none => s
      | some (g, file) =>
          match Vfs.vfsRead nyfsDrivers g size s.vfs with
          | (.ok (_, g'), v) => s.behind k v (s.held.set place (g', file))
          | (.error _, v) => s.behind k v s.held
  | .write place bytes =>
      match s.held[place]? with
      | none => s
      | some (g, file) =>
          match Vfs.vfsWrite nyfsDrivers g bytes s.vfs with
          | (.ok (_, g'), v) => s.behind k v (s.held.set place (g', file))
          | (.error _, v) => s.behind k v s.held
  | .close place =>
      match s.held[place]? with
      | none => s
      | some (g, _) =>
          match Vfs.vfsClose nyfsDrivers g s.vfs with
          | (.ok _, v) => s.behind k v (s.held.eraseIdx place)
          | (.error _, v) => s.behind k v s.held
  | .create buffer path mode =>
      s.behind k (Vfs.vfsCreate nyfsDrivers buffer path mode s.vfs).2 s.held
  | .unlink buffer path => s.behind k (Vfs.vfsUnlink nyfsDrivers buffer path s.vfs).2 s.held
  | .become cred =>
      s.behind k { s.vfs with drv := { s.vfs.drv with fs := { s.vfs.drv.fs with cred := cred } } } s.held

/-- A file has not been removed: its inode is in use, and has not been allocated again. -/
structure HandleSession.Present (k : Nat) (L : Layout) (s : HandleSession D) (file : FileId) : Prop where
  live : Live L (s.vfs.drv.fs.volumes k).view file.ino
  same : s.fileAt file.ino = file

/-- When a call through a handle reaches the driver, the file of the handle has not been removed. -/
def HandleSession.Current (k : Nat) (L : Layout) (s : HandleSession D) (place : Nat) : Prop :=
  ∀ g file, s.held[place]? = some (g, some file) → Vfs.opsOf nyfsDrivers s.vfs g.vnode ≠ none →
    s.Present k L file

/-- No call reads or writes a file that has been removed. -/
def HandleCall.Current (k : Nat) (L : Layout) (s : HandleSession D) : HandleCall → Prop
  | read place _ => s.Current k L place
  | write place _ => s.Current k L place
  | _ => True

/-- A volume that a format and requests have left is mounted at the root of a namespace, and calls
follow that meet a condition on the session before them. -/
inductive HandleRun (p : MkfsParams) (d : D) (k : Nat)
    (ok : HandleSession D → HandleCall → Prop) : HandleSession D → Prop
  | start {v : VfsState (NyfsState D)} (hmounted : CacheRun p d k (fun _ _ => False) v) :
      HandleRun p d k ok ⟨v, fun _ => 0, []⟩
  | step {s : HandleSession D} (c : HandleCall) (hrun : HandleRun p d k ok s) (hfits : c.Fits)
      (hok : ok s c) : HandleRun p d k ok (s.step k c)

/-! ## Handles lead to their files -/

section Holds

variable {s : HandleSession D} {v : VfsState (NyfsState D)} {place : Nat}

/-- A handle leads to the inode of its file. -/
def LeadsTo (k : Nat) (v : VfsState (NyfsState D)) (h : Handle × Option FileId) : Prop :=
  ∃ file slot, h.2 = some file ∧ h.1.fsPrivate = some slot ∧ slot < nyfsMaxHandles ∧
    v.drv.fs.handleSlots slot = ⟨true, ⟨some k, file.ino⟩⟩

/-- The cache shows the volume, and every handle leads to the inode of its file, each by its own
slot. -/
structure HandleSession.Holds (k : Nat) (L : Layout) (s : HandleSession D) : Prop where
  coheres : ∃ r, Coheres k L r s.vfs
  leads : ∀ h ∈ s.held, LeadsTo k s.vfs h
  distinct : (s.held.map (fun h => h.1.fsPrivate)).Nodup

omit [ReliableDevice D] in
theorem LeadsTo.congr {h : Handle × Option FileId} (hleads : LeadsTo k s.vfs h)
    (hsame : SameHandles s.vfs v) : LeadsTo k v h := by
  obtain ⟨file, slot, hfile, hslot, hlt, hentry⟩ := hleads
  refine ⟨file, slot, hfile, hslot, hlt, ?_⟩
  rw [hsame]
  exact hentry

/-- A call that leaves the open files. -/
theorem HandleSession.Holds.same (h : s.Holds k L) (hcoheres : ∃ r, Coheres k L r v)
    (hsame : SameHandles s.vfs v) : (s.behind k v s.held).Holds k L :=
  ⟨hcoheres, fun g hg => (h.leads g hg).congr hsame, h.distinct⟩

/-- A handle has moved in its file. -/
theorem HandleSession.Holds.moved (h : s.Holds k L) (hcoheres : ∃ r, Coheres k L r v)
    (hsame : SameHandles s.vfs v) {g g' : Handle} {file : Option FileId}
    (hg : s.held[place]? = some (g, file)) (hslot : g'.fsPrivate = g.fsPrivate) :
    (s.behind k v (s.held.set place (g', file))).Holds k L := by
  obtain ⟨hlt, hget⟩ := List.getElem?_eq_some_iff.mp hg
  refine ⟨hcoheres, fun x hx => ?_, ?_⟩
  · rcases List.mem_or_eq_of_mem_set hx with hold | rfl
    · exact (h.leads x hold).congr hsame
    · obtain ⟨file', slot, hfile, hprivate, hrest⟩ :=
        (h.leads (g, file) (List.mem_of_getElem? hg)).congr hsame
      exact ⟨file', slot, hfile, hslot.trans hprivate, hrest⟩
  · have hmap : (s.held.set place (g', file)).map (fun h => h.1.fsPrivate) =
        s.held.map (fun h => h.1.fsPrivate) := by
      have hlt' : place < (s.held.map (fun h => h.1.fsPrivate)).length := by
        rw [List.length_map]
        exact hlt
      have hself : g.fsPrivate = (s.held.map (fun h => h.1.fsPrivate))[place] := by
        rw [List.getElem_map, hget]
      rw [List.map_set, hslot, hself, List.set_getElem_self]
    change (List.map _ (s.held.set place (g', file))).Nodup
    rw [hmap]
    exact h.distinct

/-- A file has been opened. -/
theorem HandleSession.Holds.opened (h : s.Holds k L) (hcoheres : ∃ r, Coheres k L r v) {slot : Nat}
    {g : Handle} {file : FileId} (hlt : slot < nyfsMaxHandles)
    (hfree : (s.vfs.drv.fs.handleSlots slot).inUse = false)
    (hslots : v.drv.fs.handleSlots =
      Function.update s.vfs.drv.fs.handleSlots slot ⟨true, ⟨some k, file.ino⟩⟩)
    (hslot : g.fsPrivate = some slot) :
    (s.behind k v ((g, some file) :: s.held)).Holds k L := by
  have hnew : ∀ x ∈ s.held, x.1.fsPrivate ≠ some slot := by
    intro x hx heq
    obtain ⟨file', slot', -, hslot', -, hentry⟩ := h.leads x hx
    obtain rfl : slot = slot' := Option.some.inj (heq.symm.trans hslot')
    rw [hentry] at hfree
    cases hfree
  refine ⟨hcoheres, fun x hx => ?_, ?_⟩
  · rcases List.mem_cons.mp hx with rfl | hx
    · refine ⟨file, slot, rfl, hslot, hlt, ?_⟩
      change v.drv.fs.handleSlots slot = _
      rw [hslots, Function.update_self]
    · obtain ⟨file', slot', hfile, hslot', hlt', hentry⟩ := h.leads x hx
      refine ⟨file', slot', hfile, hslot', hlt', ?_⟩
      change v.drv.fs.handleSlots slot' = _
      rw [hslots, Function.update_of_ne, hentry]
      rintro rfl
      exact hnew x hx hslot'
  · refine List.nodup_cons.mpr ⟨fun hmem => ?_, h.distinct⟩
    obtain ⟨x, hx, heq⟩ := List.mem_map.mp hmem
    exact hnew x hx (heq.trans hslot)

/-- Two handles at different places have different slots. -/
theorem HandleSession.Holds.slots_ne (h : s.Holds k L) {a b : Nat} {x y : Handle × Option FileId}
    (ha : s.held[a]? = some x) (hb : s.held[b]? = some y) (hne : a ≠ b) :
    x.1.fsPrivate ≠ y.1.fsPrivate := by
  intro heq
  have hlt : a < (s.held.map (fun h => h.1.fsPrivate)).length := by
    rw [List.length_map]
    exact (List.getElem?_eq_some_iff.mp ha).1
  refine hne ((List.getElem?_inj hlt h.distinct).mp ?_)
  rw [List.getElem?_map, List.getElem?_map, ha, hb, Option.map_some, Option.map_some, heq]

/-- A file has been closed. -/
theorem HandleSession.Holds.closed (h : s.Holds k L) (hcoheres : ∃ r, Coheres k L r v) {slot : Nat}
    {x : Handle × Option FileId} {entry : DataSlot} (hx : s.held[place]? = some x)
    (hslot : x.1.fsPrivate = some slot)
    (hslots : v.drv.fs.handleSlots = Function.update s.vfs.drv.fs.handleSlots slot entry) :
    (s.behind k v (s.held.eraseIdx place)).Holds k L := by
  refine ⟨hcoheres, fun y hy => ?_, ?_⟩
  · obtain ⟨b, hne, hb⟩ := List.mem_eraseIdx_iff_getElem?.mp hy
    obtain ⟨file, slot', hfile, hslot', hlt, hentry⟩ := h.leads y (List.mem_of_getElem? hb)
    refine ⟨file, slot', hfile, hslot', hlt, ?_⟩
    change v.drv.fs.handleSlots slot' = _
    rw [hslots, Function.update_of_ne, hentry]
    rintro rfl
    exact h.slots_ne hb hx hne (hslot'.trans hslot.symm)
  · have hsub := (List.eraseIdx_sublist s.held place).map (fun h => h.1.fsPrivate)
    exact hsub.nodup h.distinct

omit [ReliableDevice D] in
/-- The inode that a handle of a session leads to. -/
theorem LeadsTo.handleInode {g : Handle} {file : FileId} (h : LeadsTo k v (g, some file)) :
    Nyfs.handleInode v.drv g = some (k, file.ino) := by
  obtain ⟨file', slot, hfile, hslot, -, hentry⟩ := h
  obtain rfl : file = file' := Option.some.inj hfile
  dsimp only at hslot
  rw [Nyfs.handleInode, hslot, Option.bind_some, hentry]
  rfl

end Holds

/-! ## One call -/

/-- An open fails, or takes a slot for the inode that its path has on the volume. -/
theorem Coherent.vfsOpen_cases {s : VfsState (NyfsState D)} {kids : Nat → List Nat} {ino : Nat → Nat}
    (h : Coherent k L r s kids ino nodes) (buffer path : List UInt8) (flags : Nat) :
    (∃ e s', Vfs.vfsOpen nyfsDrivers buffer path flags s = (.error e, s') ∧ SameHandles s s') ∨
      ∃ g s' slot ns localPath t, Vfs.vfsOpen nyfsDrivers buffer path flags s = (.ok g, s') ∧
        Vfs.namespaceOf s buffer path = some (ns, localPath) ∧
        diskNode (s.drv.fs.volumes k) localPath = some t ∧ slot < nyfsMaxHandles ∧
        (s.drv.fs.handleSlots slot).inUse = false ∧ g.fsPrivate = some slot ∧
        s'.drv.fs.handleSlots = Function.update s.drv.fs.handleSlots slot ⟨true, ⟨some k, t⟩⟩ := by
  obtain ⟨s₁, kids₁, ino₁, hgrown, hcase⟩ := h.path_cases buffer path
  have hsame : SameHandles s s₁ := hgrown.handleSlots
  rcases hcase with ⟨e, hrun⟩ | ⟨d, hrun, hbare⟩ | ⟨ns, localPath, d, hat⟩
  · refine Or.inl ⟨e, s₁, ?_, hsame⟩
    rw [Vfs.vfsOpen, Eff.bind_error hrun]
  · refine Or.inl ⟨.status .Nunsupported, s₁, ?_, hsame⟩
    rw [Vfs.vfsOpen, Eff.bind_ok hrun, Eff.gets_bind_run, hbare]
    rfl
  · obtain ⟨-, n, hnode, hstands⟩ := hgrown.coherent.shows d hat.cached
    rw [hat.vfsOpen_eq hnode hstands flags, Vfs.callDriver,
      nyfsOpen_eq hstands.vnodeOf flags ⟨some n, 0, flags, none⟩]
    cases (openNode (ino₁ d) flags s₁.drv.fs.cred (s₁.drv.fs.volumes k)).1 with
    | error e => exact Or.inl ⟨e, s₁, rfl, hsame⟩
    | ok u =>
        dsimp only
        cases hfree : Vfs.firstFree (fun j => (s₁.drv.fs.handleSlots j).inUse) nyfsMaxHandles with
        | none => exact Or.inl ⟨.status .NoutOfMemory, s₁, rfl, hsame⟩
        | some slot =>
            obtain ⟨hlt, hunused⟩ := Vfs.firstFree_spec hfree
            rw [hgrown.handleSlots] at hunused
            refine Or.inr ⟨_, _, slot, ns, localPath, ino₁ d, rfl, hat.space, hat.disk, hlt, hunused,
              rfl, ?_⟩
            change Function.update s₁.drv.fs.handleSlots slot _ = _
            rw [hgrown.handleSlots]

/-- A call through a handle without a driver is refused. -/
theorem vfsRead_noOps {s : VfsState (NyfsState D)} {g : Handle}
    (hops : Vfs.opsOf nyfsDrivers s g.vnode = none) (size : Nat) :
    Vfs.vfsRead nyfsDrivers g size s = (.error (.status .Nunsupported), s) := by
  rw [Vfs.vfsRead, Eff.gets_bind_run, hops]
  rfl

theorem vfsWrite_noOps {s : VfsState (NyfsState D)} {g : Handle}
    (hops : Vfs.opsOf nyfsDrivers s g.vnode = none) (bytes : List UInt8) :
    Vfs.vfsWrite nyfsDrivers g bytes s = (.error (.status .Nunsupported), s) := by
  rw [Vfs.vfsWrite, Eff.gets_bind_run, hops]
  rfl

section Calls

variable {s : HandleSession D} {place : Nat} {g : Handle} {file : FileId}

/-- A read through a handle returns bytes of its file. -/
def HandleSession.ReadsFrom (k : Nat) (L : Layout) (s : HandleSession D) (g : Handle) (file : FileId) :
    Prop :=
  ∀ size bytes g', (Vfs.vfsRead nyfsDrivers g size s.vfs).1 = .ok (bytes, g') →
    s.Present k L file ∧ ∃ content,
      fileContent file.ino (s.vfs.drv.fs.volumes k) = .ok content ∧
        bytes = (content.drop g.offset).take size

/-- A write through a handle leaves every other file. -/
def HandleSession.WritesTo (k : Nat) (L : Layout) (s : HandleSession D) (g : Handle) (file : FileId) :
    Prop :=
  ∀ bytes j, Live L (s.vfs.drv.fs.volumes k).view j → s.fileAt j ≠ file →
    SameFile (s.vfs.drv.fs.volumes k)
      ((Vfs.vfsWrite nyfsDrivers g bytes s.vfs).2.drv.fs.volumes k) j

/-- What is read through a handle whose file has not been removed. -/
theorem HandleSession.Holds.readsFrom (h : s.Holds k L) (hg : s.held[place]? = some (g, some file))
    (hcurrent : s.Current k L place) : s.ReadsFrom k L g file := by
  obtain ⟨r, kids, ino, nodes, hcoherent⟩ := h.coheres
  intro size bytes g' hok
  by_cases hops : Vfs.opsOf nyfsDrivers s.vfs g.vnode = none
  · rw [vfsRead_noOps hops] at hok
    cases hok
  have hpresent := hcurrent g file hg hops
  refine ⟨hpresent, ?_⟩
  obtain ⟨content, hcontent, hread⟩ := hcoherent.volume.fileRead_content hpresent.live g.offset size
  refine ⟨content, hcontent, ?_⟩
  rcases vfsRead_eq s.vfs g size with ⟨e, hrun⟩ | ⟨vol, i, hinode, hrun⟩
  · rw [hrun] at hok
    cases hok
  · rw [(h.leads _ (List.mem_of_getElem? hg)).handleInode] at hinode
    cases hinode
    rw [hrun, hread] at hok
    cases hok
    rfl

/-- What is written through a handle whose file has not been removed. -/
theorem HandleSession.Holds.writesTo (h : s.Holds k L) (hg : s.held[place]? = some (g, some file))
    (hcurrent : s.Current k L place) : s.WritesTo k L g file := by
  obtain ⟨r, kids, ino, nodes, hcoherent⟩ := h.coheres
  intro bytes j hj hne
  by_cases hops : Vfs.opsOf nyfsDrivers s.vfs g.vnode = none
  · rw [vfsWrite_noOps hops]
    exact SameFile.refl _ j
  have hpresent := hcurrent g file hg hops
  rcases vfsWrite_eq s.vfs g bytes with ⟨e, hrun⟩ | ⟨vol, i, hinode, hrun⟩
  · rw [hrun]
    exact SameFile.refl _ j
  · rw [(h.leads _ (List.mem_of_getElem? hg)).handleInode] at hinode
    cases hinode
    have hji : j ≠ file.ino := by
      rintro rfl
      exact hne hpresent.same
    rw [hrun]
    dsimp only
    rw [withVolume_self]
    exact hcoherent.volume.fileWrite_others hpresent.live hj hji g.offset bytes

/-- One call keeps the invariant. -/
theorem HandleSession.Holds.step (h : s.Holds k L) (c : HandleCall) (hfits : c.Fits)
    (hcurrent : c.Current k L s) : (s.step k c).Holds k L := by
  obtain ⟨r, hcoheres⟩ := h.coheres
  cases c with
  | openFile buffer path flags =>
      have hafter := hcoheres.exec (.openFile buffer path flags) trivial trivial
      rw [MountCall.exec] at hafter
      obtain ⟨kids, ino, nodes, hcoherent⟩ := hcoheres
      rw [HandleSession.step]
      rcases hcoherent.vfsOpen_cases buffer path flags with ⟨e, v, hrun, hsame⟩ |
        ⟨g, v, slot, ns, localPath, t, hrun, hspace, hdisk, hlt, hfree, hslot, hslots⟩
      · rw [hrun] at hafter ⊢
        exact h.same ⟨r, hafter⟩ hsame
      · rw [hrun] at hafter ⊢
        have hfile : s.fileOf k buffer path = some (s.fileAt t) := by
          rw [HandleSession.fileOf, hspace, Option.bind_some, hdisk]
          rfl
        dsimp only
        rw [hfile]
        exact h.opened ⟨r, hafter⟩ hlt hfree hslots hslot
  | read place size =>
      rw [HandleSession.step]
      cases hg : s.held[place]? with
      | none => exact h
      | some x =>
          obtain ⟨g, file⟩ := x
          dsimp only
          rcases vfsRead_eq s.vfs g size with ⟨e, hrun⟩ | ⟨vol, i, -, hrun⟩
          · rw [hrun]
            exact h.same ⟨r, hcoheres⟩ (SameHandles.refl _)
          · rw [hrun]
            cases (fileRead i g.offset size (s.vfs.drv.fs.volumes vol)).1 with
            | error e => exact h.same ⟨r, hcoheres⟩ (SameHandles.refl _)
            | ok bytes => exact h.moved ⟨r, hcoheres⟩ (SameHandles.refl _) hg rfl
  | write place bytes =>
      rw [HandleSession.step]
      cases hg : s.held[place]? with
      | none => exact h
      | some x =>
          obtain ⟨g, file⟩ := x
          dsimp only
          have hafter : Coheres k L r (Vfs.vfsWrite nyfsDrivers g bytes s.vfs).2 := by
            by_cases hops : Vfs.opsOf nyfsDrivers s.vfs g.vnode = none
            · rw [vfsWrite_noOps hops]
              exact hcoheres
            refine hcoheres.exec (.write g bytes) trivial (fun i hi => ?_)
            have hleads := h.leads _ (List.mem_of_getElem? hg)
            obtain ⟨file', -, hfile, -⟩ := id hleads
            dsimp only at hfile
            subst hfile
            rw [hleads.handleInode] at hi
            cases hi
            exact (hcurrent g file' hg hops).live
          rcases vfsWrite_eq s.vfs g bytes with ⟨e, hrun⟩ | ⟨vol, i, -, hrun⟩
          · rw [hrun] at hafter ⊢
            exact h.same ⟨r, hafter⟩ (SameHandles.refl _)
          · rw [hrun] at hafter ⊢
            cases (fileWrite i g.offset bytes (s.vfs.drv.fs.volumes vol)).1 with
            | error e => exact h.same ⟨r, hafter⟩ rfl
            | ok written => exact h.moved ⟨r, hafter⟩ rfl hg rfl
  | close place =>
      rw [HandleSession.step]
      cases hg : s.held[place]? with
      | none => exact h
      | some x =>
          obtain ⟨g, file⟩ := x
          have hafter := hcoheres.exec (.close g) trivial trivial
          rw [MountCall.exec] at hafter
          obtain ⟨-, slot, -, hslot, hlt, -⟩ := h.leads _ (List.mem_of_getElem? hg)
          dsimp only at hslot ⊢
          rcases vfsClose_cases g s.vfs with ⟨-, hclose⟩ | ⟨-, hclose⟩
          · rw [hclose]
            exact h.same ⟨r, hcoheres⟩ (SameHandles.refl _)
          · rw [hclose slot hslot hlt] at hafter ⊢
            exact h.closed ⟨r, hafter⟩ hg hslot rfl
  | create buffer path mode =>
      exact h.same ⟨r, hcoheres.exec (.create buffer path mode) trivial trivial⟩
        (OtherCall.sameHandles (.create buffer path mode) s.vfs)
  | unlink buffer path =>
      exact h.same ⟨r, hcoheres.exec (.unlink buffer path) trivial trivial⟩
        (OtherCall.sameHandles (.unlink buffer path) s.vfs)
  | become cred => exact h.same ⟨r, hcoheres.exec (.become cred) hfits trivial⟩ rfl

/-- Every handle of a run leads to the inode of its file, when no call reads or writes a file that has
been removed. -/
theorem HandleRun.holds {p : MkfsParams} {d : D} (hsmall : p.Small)
    (h : HandleRun p d k (fun s c => c.Current k p.layout s) s) : s.Holds k p.layout := by
  induction h with
  | start hmounted =>
      exact ⟨hmounted.coheres hsmall (fun _ _ => False.elim), fun _ hg => (List.not_mem_nil hg).elim,
        List.nodup_nil⟩
  | step c _ hfits hok ih => exact ih.step c hfits hok

/-- In every run that reads and writes no file that has been removed, a write through a handle leaves every
file but the one that was opened, and a read through it returns bytes of that file. -/
theorem open_files_isolated {p : MkfsParams} {d : D} (hsmall : p.Small)
    (h : HandleRun p d k (fun s c => c.Current k p.layout s) s) {opened : Option FileId}
    (hg : s.held[place]? = some (g, opened)) (hcurrent : s.Current k p.layout place) :
    ∃ file, opened = some file ∧ s.WritesTo k p.layout g file ∧ s.ReadsFrom k p.layout g file := by
  have hholds := h.holds hsmall
  obtain ⟨file, -, hfile, -⟩ := hholds.leads _ (List.mem_of_getElem? hg)
  dsimp only at hfile
  subst hfile
  exact ⟨file, rfl, hholds.writesTo hg hcurrent, hholds.readsFrom hg hcurrent⟩

end Calls

/-! ## A file that is removed and made again -/

/-- A file of a small volume has been made and opened, and is the only one. -/
structure FileOpened (L : Layout) (s : VfsState (NyfsState MemoryDisk)) (kids : Nat → List Nat)
    (ino : Nat → Nat) (nodes : Nat → Node) (name : Name) : Prop where
  cached : FileCached L s kids ino nodes name 1
  node : (s.dentries 1).node = some 1
  vnodes : ∀ n, (s.drv.vnodes n).inUse = decide (n < 2)
  vnodeData : ∀ n, (s.drv.fs.vnodeData n).inUse = decide (n < 2)
  handle : s.drv.fs.handleSlots 0 = ⟨true, ⟨some 0, 2⟩⟩

/-- The first creation behind the mount takes the second slots of the pools. -/
theorem created_atRoot {v : Volume MemoryDisk} {s : VfsState (NyfsState MemoryDisk)}
    (hsound : Sound L v nodes)
    (hcreate : Vfs.vfsCreate nyfsDrivers [] [47, 97] 0o644 (freshMount v) = (.ok (), s)) :
    ∃ t v', s = { freshMount v with
      dentries := entered (freshMount v).dentries 0 1 [97] 1
      drv := withVnode (withVolume (freshMount v).drv 0 v') 1 1 0 t 1 } := by
  have hname : OneComponent [97] := ⟨nameOk_a, by decide⟩
  have hcoherent := coherent_freshMount hsound
  have hstep := hcoherent.makeEntry_in (by decide)
    ((atBoot_freshMount v).inDirectory hcoherent hname) false 0o644
  change Vfs.makeEntry nyfsDrivers (makeOp false) [] [47, 97] 0o644 (freshMount v) = _ at hcreate
  rw [hcreate] at hstep
  cases hstep with
  | made t v' c n slot hnone hmake hn hslot hc =>
      cases hn
      cases hslot
      cases hc
      exact ⟨t, v', rfl⟩

/-- The path of the file leads to its inode. -/
theorem FileCached.diskNode {s : VfsState (NyfsState D)} {kids : Nat → List Nat} {ino : Nat → Nat}
    {name : Name} {c : Nat} (h : FileCached L s kids ino nodes name c) (hname : OneComponent name) :
    Nyfs.diskNode (s.drv.fs.volumes 0) (47 :: name) = some 2 := by
  have hfind : (nodes nyfsRootIno).find name = some (2, nyfsDirentTypeFile) := by
    rw [h.file.find, Function.update_self]
  rw [diskNode_of_component _ hname,
    h.coherent.volume.lookupNode_root h.coherent.volume.inventory.root.1 hfind]

/-- A session that makes a file on a small volume and opens it for writing. -/
theorem tiny_opened (ok : HandleSession MemoryDisk → HandleCall → Prop)
    (hcreate : ∀ s buffer path mode, ok s (.create buffer path mode))
    (hopen : ∀ s buffer path flags, ok s (.openFile buffer path flags)) :
    ∃ s kids ino nodes births, FileOpened (tinyParams 114).layout s kids ino nodes [97] ∧
      HandleRun (tinyParams 114) ⟨fun _ => 0⟩ 0 ok
        ⟨s, births, [(⟨some 1, 0, 2, some 0⟩, some ⟨2, births 2⟩)]⟩ := by
  have hname : OneComponent [97] := ⟨nameOk_a, by decide⟩
  have hsmall : (tinyParams 114).Small := ⟨by decide, by decide⟩
  obtain ⟨v, s, kids, ino, nodes, c, hreach, hrun, hcached⟩ := tiny_created
  obtain ⟨nodes₀, hsound⟩ := hreach.inventory hsmall
  obtain ⟨t, v', hs⟩ := created_atRoot hsound hrun
  have hchild : cachedChild s.dentries 0 [97] = some 1 := by
    rw [hs]
    rfl
  rw [hcached.cachedChild_eq] at hchild
  obtain rfl : c = 1 := Option.some.inj hchild
  have hnode : (s.dentries 1).node = some 1 := by
    rw [hs]
    rfl
  have hvnodes : ∀ n, (s.drv.vnodes n).inUse = decide (n < 2) := by
    intro n
    rw [hs]
    match n with
    | 0 => rfl
    | 1 => rfl
    | n + 2 => rfl
  have hdata : ∀ n, (s.drv.fs.vnodeData n).inUse = decide (n < 2) := by
    intro n
    rw [hs]
    match n with
    | 0 => rfl
    | 1 => rfl
    | n + 2 => rfl
  have hslots : Vfs.firstFree (fun j => (s.drv.fs.handleSlots j).inUse) nyfsMaxHandles = some 0 := by
    rw [hs]
    rfl
  -- the two calls of the session
  have hstart : HandleRun (tinyParams 114) ⟨fun _ => 0⟩ 0 ok ⟨freshMount v, fun _ => 0, []⟩ :=
    HandleRun.start (cacheRun_freshMount hreach _)
  have hmade := HandleRun.step (.create [] [47, 97] 0o644) hstart trivial (hcreate _ _ _ _)
  obtain ⟨births, hbirths⟩ : ∃ births,
      HandleSession.step 0 ⟨freshMount v, fun _ => 0, []⟩ (.create [] [47, 97] 0o644) =
        ⟨s, births, []⟩ := by
    rw [HandleSession.step]
    dsimp only
    rw [hrun]
    exact ⟨_, rfl⟩
  rw [hbirths] at hmade
  have hstep := HandleRun.step (.openFile [] [47, 97] 2) hmade trivial (hopen _ _ _ _)
  have hfile : HandleSession.fileOf 0 (⟨s, births, []⟩ : HandleSession MemoryDisk) [] [47, 97] =
      some ⟨2, births 2⟩ := by
    rw [HandleSession.fileOf]
    dsimp only
    rw [hcached.boot.namespaceOf [97], Option.bind_some, hcached.diskNode hname]
    rfl
  rw [HandleSession.step] at hstep
  dsimp only at hstep
  rw [hcached.vfsOpen hname hnode hslots 2] at hstep
  dsimp only at hstep
  rw [hfile, HandleSession.behind_same (by rfl)] at hstep
  refine ⟨_, kids, ino, nodes, births, ?_, hstep⟩
  exact ⟨⟨hcached.coherent.withHandleSlots _, ⟨hcached.boot.1, hcached.boot.2⟩, hcached.top,
    hcached.cred, hcached.file, hcached.mem, hcached.label⟩, hnode, hvnodes, hdata,
    by dsimp only; rw [Function.update_self]⟩

/-- When the file has been removed, its inode is free, and there is room for it again. -/
theorem OneFile.remade {V V' : View} {nodes nodes' : Nat → Node} {name : Name}
    (h : OneFile (tinyParams 114).layout V nodes name) (hname : NameOk name)
    (hroom : 160 + recordSize name.length + 24 + name.length ≤ 512)
    (hinv : Inventory (tinyParams 114).layout V nodes)
    (hout : RemoveOutcome (tinyParams 114).layout V nodes nyfsRootIno name V' nodes' (.ok ()))
    (hfree : (nodes' nyfsRootIno).free = (nodes nyfsRootIno).free) :
    MakeStarts (tinyParams 114).layout V' (nodes' nyfsRootIno) (V'.inode nyfsRootIno) name ⟨0, 0⟩ ∧
      aclPlan (tinyParams 114).layout V' (V'.inode nyfsRootIno) false = some [] ∧
      (nodes' nyfsRootIno).free + 24 + name.length ≤
        capacity (tinyParams 114).layout (nodes' nyfsRootIno).table ∧
      firstClear V'.inodeBit (tinyParams 114).layout.inodeCount 0 = some 2 ∧
      V'.blockBit 62 = false ∧ V'.blockBit 63 = false := by
  cases hout with
  | removed t type hfind ht hbit hkept hparent hothers htables hfreed =>
      obtain rfl : t = 2 := by
        rw [h.find, Function.update_self] at hfind
        exact (congrArg Prod.fst (Option.some.inj hfind)).symm
      have hroot := hinv.root.1
      have hkeep := hkept nyfsRootIno hroot (by decide)
      have hfirst : firstClear V'.inodeBit (tinyParams 114).layout.inodeCount 0 = some 2 := by
        rw [hbit, h.inodeBit, Function.update_idem]
        decide +kernel
      have hclear : mark (metadataBits (tinyParams 114).layout) [60, 61] 62 = false ∧
          mark (metadataBits (tinyParams 114).layout) [60, 61] 63 = false := by
        decide +kernel
      refine ⟨⟨(Inode.type_of_core hkeep.core).trans h.rootType, Or.inl rfl, hname, ?_, ?_⟩, ?_, ?_,
        hfirst, ?_, ?_⟩
      · rw [hparent, Function.update_self]
      · rw [hfirst]
        exact Option.some_ne_none 2
      · have hacl := (aclPlan_eq_nil_iff (h.rootAcl false)).mp rfl
        have hsame : inheritedAces V' (V'.inode nyfsRootIno) false =
            inheritedAces V (V.inode nyfsRootIno) false := by
          rw [inheritedAces, inheritedAces, hkeep.aces (hinv.holds nyfsRootIno hroot)]
        rw [← hsame] at hacl
        rw [aclPlan, if_pos hacl]
      · rw [hfree, htables, h.rootFree, h.rootCapacity]
        exact hroom
      · rw [hfreed, h.bits_eq, hclear.1, Bool.false_and]
      · rw [hfreed, h.bits_eq, hclear.2, Bool.false_and]

/-- The file of a small volume has been removed, and it can be made again with the same inode and the
same vnode. -/
structure FileGone (s : VfsState (NyfsState MemoryDisk)) (kids : Nat → List Nat) (ino : Nat → Nat)
    (nodes : Nat → Node) : Prop where
  coherent : Coherent 0 (tinyParams 114).layout 0 s kids ino nodes
  boot : AtBoot s
  cred : s.drv.fs.cred = ⟨0, 0⟩
  starts : MakeStarts (tinyParams 114).layout (s.drv.fs.volumes 0).view (nodes nyfsRootIno)
    ((s.drv.fs.volumes 0).view.inode nyfsRootIno) [97] ⟨0, 0⟩
  acl : aclPlan (tinyParams 114).layout (s.drv.fs.volumes 0).view
    ((s.drv.fs.volumes 0).view.inode nyfsRootIno) false = some []
  room : (nodes nyfsRootIno).free + 24 + [97].length ≤
    capacity (tinyParams 114).layout (nodes nyfsRootIno).table
  first : firstClear (s.drv.fs.volumes 0).view.inodeBit (tinyParams 114).layout.inodeCount 0 = some 2
  blocks : (s.drv.fs.volumes 0).view.blockBit 62 = false ∧
    (s.drv.fs.volumes 0).view.blockBit 63 = false
  vnode : freeVnodeSlot s.drv = some 1
  data : freeDataSlot s.drv = some 2
  dentry : (s.dentries 1).inUse = false

/-- The file is unlinked. -/
theorem FileOpened.unlink {s : VfsState (NyfsState MemoryDisk)} {kids : Nat → List Nat}
    {ino : Nat → Nat} (h : FileOpened (tinyParams 114).layout s kids ino nodes [97]) :
    ∃ s₁ kids₁ ino₁ nodes₁, Vfs.vfsUnlink nyfsDrivers [] [47, 97] s = (.ok (), s₁) ∧
      SameHandles s s₁ ∧ FileGone s₁ kids₁ ino₁ nodes₁ := by
  have hname : OneComponent [97] := ⟨nameOk_a, by decide⟩
  obtain ⟨ds, v₁, nodes₁, hremove, hsound₁, hout, hfree, hds, hunlink⟩ :=
    h.cached.vfsUnlink hname h.node
  obtain ⟨hstarts, hacl, hroom, hfirst, hblocks⟩ := h.cached.file.remade nameOk_a (by decide)
    h.cached.coherent.volume.inventory hout hfree
  have hcoheres := h.cached.coherent.vfsUnlink [] [47, 97]
  rw [hunlink] at hcoheres
  obtain ⟨kids₁, ino₁, nodes', hcoherent⟩ := hcoheres
  have hvolume : (Vfs.vfsFreeVnode (some 1) (withVolume s.drv 0 v₁)).2.fs.volumes 0 = v₁ :=
    withVolume_self s.drv 0 v₁
  refine ⟨_, kids₁, ino₁, nodes₁, hunlink, rfl, ?_⟩
  constructor
  · exact hcoherent.withNodes (by rw [hvolume]; exact hsound₁)
  · exact ⟨h.cached.boot.1, h.cached.boot.2⟩
  · exact h.cached.cred
  · rw [hvolume]
    exact hstarts
  · rw [hvolume]
    exact hacl
  · exact hroom
  · rw [hvolume]
    exact hfirst
  · rw [hvolume]
    exact hblocks
  · have hused : (fun i => ((Vfs.vfsFreeVnode (some 1) (withVolume s.drv 0 v₁)).2.vnodes i).inUse) =
        fun i => decide (i = 0) := by
      funext i
      change (Function.update s.drv.vnodes 1 _ i).inUse = _
      by_cases hi : i = 1
      · rw [hi, Function.update_self]
        rfl
      · rw [Function.update_of_ne hi, h.vnodes, decide_eq_decide]
        omega
    rw [freeVnodeSlot, hused]
    rfl
  · have hused : (fun i => ((Vfs.vfsFreeVnode (some 1) (withVolume s.drv 0 v₁)).2.fs.vnodeData i).inUse) =
        fun i => decide (i < 2) := funext h.vnodeData
    rw [freeDataSlot, hused]
    rfl
  · exact hds.freed

/-- The file is made again. -/
theorem FileGone.create {s : VfsState (NyfsState MemoryDisk)} {kids : Nat → List Nat} {ino : Nat → Nat}
    (h : FileGone s kids ino nodes) :
    ∃ s₁ nodes₁, Vfs.vfsCreate nyfsDrivers [] [47, 97] 0o644 s = (.ok (), s₁) ∧ SameHandles s s₁ ∧
      Sound (tinyParams 114).layout (s₁.drv.fs.volumes 0) nodes₁ ∧
      Live (tinyParams 114).layout (s₁.drv.fs.volumes 0).view 2 ∧
      ((s₁.drv.fs.volumes 0).view.inode 2).size = 0 ∧ (nodes₁ 2).data = [] ∧
      (s₁.drv.fs.volumes 0).view.blockBit = (s.drv.fs.volumes 0).view.blockBit ∧
      Vfs.opsOf nyfsDrivers s₁ (some 1) = some (1, nyfsOps) := by
  have hname : OneComponent [97] := ⟨nameOk_a, by decide⟩
  have hstep := h.coherent.makeEntry_in (by decide) (h.boot.inDirectory h.coherent hname) false 0o644
  obtain ⟨nodes₁, hsound₁, hmakes⟩ := h.coherent.volume.makeNode_step
    h.coherent.volume.inventory.root.1 false [97] 0o644 superuser_fits
  rw [h.coherent.top] at hstep
  refine ⟨(Vfs.makeEntry nyfsDrivers (makeOp false) [] [47, 97] 0o644 s).2, nodes₁, ?_⟩
  change Vfs.makeEntry nyfsDrivers (makeOp false) [] [47, 97] 0o644 s = _ ∧ _
  cases hmade : Vfs.makeEntry nyfsDrivers (makeOp false) [] [47, 97] 0o644 s with
  | mk res s₁ =>
      rw [hmade] at hstep
      dsimp only at hstep ⊢
      cases hstep with
      | present c hpresent =>
          rw [h.coherent.cachedChild_eq_none (by rw [h.coherent.top]; exact h.starts.absent)] at hpresent
          cases hpresent
      | refused e v' hnone hmake =>
          rw [h.cred] at hmake
          rw [hmake] at hmakes
          cases hmakes with
          | failed e leaked _ _ _ _ _ hno =>
              exact absurd ⟨h.starts, [], [], h.acl, rfl, Or.inl h.room⟩ hno
      | noVnode t v' drv hnone hmake hno =>
          rcases hno with hno | hno
          · cases hno.symm.trans h.vnode
          · cases hno.symm.trans h.data
      | noDentry t v' n slot hnone hmake hn hslot hno =>
          have hall := List.find?_eq_none.mp hno 1 (List.mem_range.mpr (by decide))
          dsimp only at hall
          rw [h.dentry] at hall
          exact absurd rfl hall
      | made t v' c n slot hnone hmake hn hslot hc =>
          obtain rfl : 1 = n := Option.some.inj (h.vnode.symm.trans hn)
          rw [h.cred] at hmake
          rw [hmake] at hmakes hsound₁
          have hafter : (withVnode (withVolume s.drv 0 v') 1 slot 0 t 1).fs.volumes 0 = v' :=
            withVolume_self s.drv 0 v'
          refine ⟨rfl, rfl, ?_⟩
          change Sound _ ((withVnode (withVolume s.drv 0 v') 1 slot 0 t 1).fs.volumes 0) _ ∧
            Live _ ((withVnode (withVolume s.drv 0 v') 1 slot 0 t 1).fs.volumes 0).view 2 ∧
            (((withVnode (withVolume s.drv 0 v') 1 slot 0 t 1).fs.volumes 0).view.inode 2).size = 0 ∧ _ ∧
            ((withVnode (withVolume s.drv 0 v') 1 slot 0 t 1).fs.volumes 0).view.blockBit = _ ∧ _
          rw [hafter]
          cases hmakes with
          | made _ hstarts hmade _ hplace =>
              obtain rfl : 2 = t := Option.some.inj (h.first.symm.trans hmade.first)
              have hlive : Live (tinyParams 114).layout v'.view 2 := by
                refine ⟨by decide, by decide, ?_⟩
                rw [hmade.inodeBit, Function.update_self]
              have hsize : (v'.view.inode 2).size = 0 := congrArg Inode.size hmade.attributes
              have hbits := (hplace h.room).2 [] [] h.acl rfl
              rw [List.append_nil, mark_nil] at hbits
              refine ⟨hsound₁, hlive, hsize, hmade.data, hbits, ?_⟩
              rw [Vfs.opsOf, withVnode]
              dsimp only
              rw [Function.update_self]
              rfl

theorem open_files_isolated_tiny : ∃ (s : HandleSession MemoryDisk) (g : Handle) (file : FileId),
    HandleRun (tinyParams 114) ⟨fun _ => 0⟩ 0 (fun s c => c.Current 0 (tinyParams 114).layout s) s ∧
      s.held[0]? = some (g, some file) ∧ s.Present 0 (tinyParams 114).layout file ∧
      ∃ file', some file = some file' ∧ s.WritesTo 0 (tinyParams 114).layout g file' ∧
        s.ReadsFrom 0 (tinyParams 114).layout g file' := by
  have hsmall : (tinyParams 114).Small := ⟨by decide, by decide⟩
  obtain ⟨s, kids, ino, nodes, births, hopened, hrun⟩ := tiny_opened
    (fun s c => c.Current 0 (tinyParams 114).layout s) (fun _ _ _ _ => trivial) (fun _ _ _ _ => trivial)
  have hpresent : HandleSession.Present 0 (tinyParams 114).layout
      ⟨s, births, [(⟨some 1, 0, 2, some 0⟩, some ⟨2, births 2⟩)]⟩ ⟨2, births 2⟩ :=
    ⟨hopened.cached.file.live, rfl⟩
  have hheld : (⟨s, births, [(⟨some 1, 0, 2, some 0⟩, some ⟨2, births 2⟩)]⟩ :
      HandleSession MemoryDisk).held[0]? =
        some (⟨some 1, 0, 2, some 0⟩, some ⟨2, births 2⟩) := rfl
  refine ⟨_, _, _, hrun, hheld, hpresent, open_files_isolated hsmall hrun hheld ?_⟩
  intro g file hg _
  cases hg
  exact hpresent

/-- A file is opened, unlinked and made again.  The new file has the inode and the vnode of the old one,
and a write through the old handle makes it longer. -/
theorem write_through_removed_file : ∃ (s : HandleSession MemoryDisk) (g : Handle) (file : FileId)
    (bytes : List UInt8) (j : Nat),
    HandleRun (tinyParams 114) ⟨fun _ => 0⟩ 0 (fun _ _ => True) s ∧ s.held = [(g, some file)] ∧
      Live (tinyParams 114).layout (s.vfs.drv.fs.volumes 0).view j ∧ s.fileAt j ≠ file ∧
      ¬SameFile (s.vfs.drv.fs.volumes 0)
        ((Vfs.vfsWrite nyfsDrivers g bytes s.vfs).2.drv.fs.volumes 0) j := by
  obtain ⟨s, kids, ino, nodes, births, hopened, hrun⟩ := tiny_opened (fun _ _ => True)
    (fun _ _ _ _ => trivial) (fun _ _ _ _ => trivial)
  obtain ⟨s₁, kids₁, ino₁, nodes₁, hunlink, hsame₁, hgone⟩ := hopened.unlink
  obtain ⟨s₂, nodes₂, hcreate, hsame₂, hsound, hlive, hsize, hdata, hbits, hops⟩ := hgone.create
  have hclear : (s₁.drv.fs.volumes 0).view.inodeBit 2 = false := (firstClear_some hgone.first).2.2
  -- the inode is allocated once more
  obtain ⟨births₁, hstep₁, hbirth₁⟩ : ∃ births₁,
      HandleSession.step 0 ⟨s, births, [(⟨some 1, 0, 2, some 0⟩, some ⟨2, births 2⟩)]⟩
        (.unlink [] [47, 97]) = ⟨s₁, births₁, [(⟨some 1, 0, 2, some 0⟩, some ⟨2, births 2⟩)]⟩ ∧
      births₁ 2 = births 2 := by
    rw [HandleSession.step]
    dsimp only
    rw [hunlink]
    refine ⟨_, rfl, ?_⟩
    dsimp only
    rw [hclear]
    rfl
  obtain ⟨births₂, hstep₂, hbirth₂⟩ : ∃ births₂,
      HandleSession.step 0 ⟨s₁, births₁, [(⟨some 1, 0, 2, some 0⟩, some ⟨2, births 2⟩)]⟩
        (.create [] [47, 97] 0o644) =
          ⟨s₂, births₂, [(⟨some 1, 0, 2, some 0⟩, some ⟨2, births 2⟩)]⟩ ∧
      births₂ 2 = births 2 + 1 := by
    rw [HandleSession.step]
    dsimp only
    rw [hcreate]
    refine ⟨_, rfl, ?_⟩
    dsimp only
    rw [hclear, hlive.set, hbirth₁]
    rfl
  have hrun₂ := (hrun.step (.unlink [] [47, 97]) trivial trivial).step (.create [] [47, 97] 0o644)
    trivial trivial
  rw [hstep₁, hstep₂] at hrun₂
  refine ⟨_, _, _, [66], 2, hrun₂, rfl, hlive, ?_, fun hkept => ?_⟩
  · intro heq
    have hbirth : births₂ 2 = births 2 := congrArg FileId.birth heq
    omega
  · have hinode : handleInode s₂.drv ⟨some 1, 0, 2, some 0⟩ = some (0, 2) := by
      rw [handleInode, Option.bind_some, hsame₂, hsame₁, hopened.handle]
      rfl
    have hrecord := hkept.inode
    dsimp only at hrecord
    rw [vfsWrite_run hops hinode] at hrecord
    dsimp only at hrecord
    rw [withVolume_self] at hrecord
    obtain ⟨nodes₃, -, -, -, hout⟩ := hsound.fileWrite_step hlive 0 [66]
    have hplan : planMany (tinyParams 114).layout
        (growthNeed (tinyParams 114).layout (nodes₂ 2).data 0 [66].length)
        (s₂.drv.fs.volumes 0).view.blockBit (tailOf (nodes₂ 2).data) ≠ none := by
      have hone := planOne_ne_none (L := (tinyParams 114).layout) (a := 62) (b := 63) (by decide)
        (by decide) (by decide) hgone.blocks.1 hgone.blocks.2 (tailOf (nodes₂ 2).data)
      have hneed : growthNeed (tinyParams 114).layout (nodes₂ 2).data 0 [66].length = 1 := by
        rw [growthNeed, hdata]
        rfl
      rw [hneed, planMany_one, hbits]
      simpa using hone
    cases hwrite : fileWrite 2 0 [66] (s₂.drv.fs.volumes 0) with
    | mk res v' =>
        rw [hwrite] at hrecord hout
        dsimp only at hrecord hout
        cases hout with
        | written ds root hplan' hdata' hinode' =>
            rw [hinode'] at hrecord
            have hlonger := congrArg Inode.size hrecord
            rw [hsize] at hlonger
            change max 0 ((0 + 1) % 2 ^ 64) = 0 at hlonger
            omega
        | full taken hne hnone => exact hplan hnone
        | wrapped ds hne hplan' hwrap =>
            change 2 ^ 64 ≤ 0 + 1 + 512 - 1 at hwrap
            omega

end Nyfs
end Nyxis
