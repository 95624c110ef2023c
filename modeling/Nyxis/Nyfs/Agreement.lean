import Nyxis.Nyfs.CacheAnswers
import Nyxis.Nyfs.Checksums
import Nyxis.Nyfs.Failures
import Nyxis.Nyfs.Names

/-!
# The kernel driver and the host library agree

The same image is mounted by the kernel driver {lit}`nyfs.c` and opened by the host library
{lit}`nyfs_core.c`, each with a copy of its own, and the same requests are made to both on the same
inodes.  Below the operations the two files have the same functions, word for word but for the
locks, so one definition stands for both; the operations themselves differ in how they come to an
inode, in what they check and in what they answer.

Both volumes are open for writing.  The host counts its mount in the superblock, so the two images
differ there and in the superblock's checksum.

Main results:

- Theorem {lit}`FsCall.kernel_eq`: on one volume the driver and the library do the same.
- Theorem {lit}`Does.twins`: a call on two volumes that differ in the mount counter.
- Theorem {lit}`kernel_and_host_agree`: whole runs.
-/

namespace Nyxis
namespace Nyfs

open Bytes Vfs

variable {D : Type} [ReliableDevice D] {L : Layout} {V V' : View} {nodes : Nat → Node}
variable {v w : Volume D} {p : MkfsParams} {d : D} {k i : Nat} {s : Drivers (NyfsState D)}

/-! ## Requests -/

/-- An inode, and the vnode through which the kernel reaches it. -/
structure Place where
  vnode : Nat
  ino : Nat

/-- A request that is made to both.  {lit}`nameRoom` is the room of the kernel's caller for a name,
without the terminating zero. -/
inductive FsCall
  | create (dir : Place) (name : List UInt8) (mode : Nat)
  | mkdir (dir : Place) (name : List UInt8) (mode : Nat)
  | remove (dir : Place) (name : List UInt8) (expectDir : Bool)
  | rename (oldDir : Place) (oldName : List UInt8) (newDir : Place) (newName : List UInt8)
  | read (file : Place) (offset size : Nat)
  | write (file : Place) (offset : Nat) (bytes : List UInt8)
  | readdir (dir : Place) (index nameRoom : Nat)

/-- What a request that succeeds answers. -/
inductive Answer
  | done
  | node (ino : Nat)
  | data (bytes : List UInt8)
  | written (count : Nat)
  | entry (name : List UInt8) (type : Nat)
deriving DecidableEq

/-- A call with its value turned into an answer. -/
def answered {σ α : Type} (f : α → Answer) (m : Eff Stop σ α) : Eff Stop σ Answer := do
  let a ← m
  pure (f a)

/-- The inode behind the vnode that a creation returns. -/
def madeNode {D : Type} (vnode : Option Nat) : KernelM D Answer :=
  match vnode with
  | none => failWith .NinvalidArg
  | some child => answered (fun entry => .node entry.2) (vnodeEntry child)

/-- The request through the kernel driver.  A read or write opens the file with that access and then
reads or writes at the offset. -/
def FsCall.kernel : FsCall → KernelM D Answer
  | .create dir name mode => do
      let child ← nyfsCreate dir.vnode name mode
      madeNode child
  | .mkdir dir name mode => do
      let child ← nyfsMkdir dir.vnode name mode
      madeNode child
  | .remove dir name _ => answered (fun _ => .done) (nyfsUnlink dir.vnode name)
  | .rename oldDir oldName newDir newName =>
      answered (fun _ => .done) (nyfsRename oldDir.vnode oldName (some newDir.vnode) newName)
  | .read file offset size => do
      let handle ← nyfsOpen file.vnode nxOpenRead ⟨some file.vnode, offset, nxOpenRead, none⟩
      answered .data (nyfsRead handle size)
  | .write file offset bytes => do
      let handle ← nyfsOpen file.vnode nxOpenWrite ⟨some file.vnode, offset, nxOpenWrite, none⟩
      answered .written (nyfsWrite handle bytes)
  | .readdir dir index nameRoom =>
      answered (fun entry => .entry entry.1 entry.2) (nyfsReaddir dir.vnode index (nameRoom + 1))

/-- The request through the host library, whose modes are 16-bit numbers. -/
def FsCall.host (cred : Cred) : FsCall → NyfsM D Answer
  | .create dir name mode => answered .node (opCreate dir.ino name (mode % 2 ^ 16) cred)
  | .mkdir dir name mode => answered .node (opMkdir dir.ino name (mode % 2 ^ 16) cred)
  | .remove dir name expectDir =>
      answered (fun _ => .done) (opRemove dir.ino name cred expectDir)
  | .rename oldDir oldName newDir newName =>
      answered (fun _ => .done) (opRename oldDir.ino oldName newDir.ino newName cred)
  | .read file offset size => answered .data (opRead file.ino cred offset size)
  | .write file offset bytes => answered .written (opWrite file.ino cred offset bytes)
  | .readdir dir index _ =>
      answered (fun view => .entry view.name view.type) (opReaddirAt dir.ino cred index)

/-- The inode that a name of a directory stands for. -/
def targetNode (dir : Nat) (name : List UInt8) : NyfsM D Inode := do
  let (ino, _) ← lookupName dir name
  readInode ino

/-- The host's answer as the kernel's caller gets it: a name is cut to the caller's room. -/
def FsCall.cut : FsCall → Answer → Answer
  | .readdir _ _ nameRoom, .entry name type => .entry (name.take nameRoom) type
  | _, answer => answer

/-- The places of a request. -/
def FsCall.places : FsCall → List Place
  | .create dir .. => [dir]
  | .mkdir dir .. => [dir]
  | .remove dir .. => [dir]
  | .rename oldDir _ newDir _ => [oldDir, newDir]
  | .read file .. => [file]
  | .write file .. => [file]
  | .readdir dir .. => [dir]

/-- The pools of the kernel have room for what the request takes from them. -/
def FsCall.HasRoom {D : Type} (s : Drivers (NyfsState D)) : FsCall → Prop
  | .create .. | .mkdir .. => ¬NoVnode s
  | .read .. | .write .. => firstFree (fun j => (s.fs.handleSlots j).inUse) nyfsMaxHandles ≠ none
  | _ => True

/-- The host is told the type of the inode that is removed. -/
def FsCall.Expects (v : Volume D) : FsCall → Prop
  | .remove dir name expectDir =>
      ∀ x, (targetNode dir.ino name v).1 = .ok x → (expectDir = true ↔ x.type = nyfsInoTypeDir)
  | _ => True

/-- A request that is made on vnodes of the volume and on the inodes behind them, which lookups
return. -/
structure FsCall.Issued (q : FsCall) (k : Nat) (s : Drivers (NyfsState D)) : Prop where
  vnodes : ∀ place ∈ q.places, VnodeOf s place.vnode k place.ino
  found : ∀ place ∈ q.places, Found (s.fs.volumes k) place.ino
  cred : s.fs.cred.Fits
  room : q.HasRoom s
  expects : q.Expects (s.fs.volumes k)

/-! ## Answers -/

section Answers

variable {σ α : Type}

omit [ReliableDevice D] in
theorem answered_run (f : α → Answer) (m : Eff Stop σ α) (t : σ) :
    answered f m t = ((m t).1.map f, (m t).2) := by
  unfold answered
  rcases hrun : m t with ⟨r, t'⟩
  cases r with
  | ok a =>
      rw [Eff.bind_ok hrun]
      rfl
  | error e =>
      rw [Eff.bind_error hrun]
      rfl

theorem Does.answered {m : NyfsM D α} {r : Except Stop α} (h : Does L V m r V') (f : α → Answer) :
    Does L V (Nyfs.answered f m) (r.map f) V' := by
  cases r with
  | ok a => exact h.bind (Does.pure (f a))
  | error e => exact h.bind_error

end Answers

/-! ## Creating -/

omit [ReliableDevice D] in
/-- A mode is cut to twelve bits. -/
theorem newInode_mode (ino type mode : Nat) (cred : Cred) :
    newInode ino type (mode % 2 ^ 16) cred = newInode ino type mode cred := by
  have hmode : (mode % 2 ^ 16) &&& 0x0FFF = mode &&& 0x0FFF := by
    rw [← Nat.and_two_pow_sub_one_eq_mod, Nat.and_assoc]
    rfl
  rw [newInode, newInode, hmode]

theorem makeNode_mode (isDir : Bool) (name : List UInt8) (mode : Nat) (cred : Cred) :
    (makeNode isDir i name (mode % 2 ^ 16) cred : NyfsM D _) = makeNode isDir i name mode cred := by
  simp only [makeNode, newInode_mode]

omit [ReliableDevice D] in
/-- A new vnode stands for its inode. -/
theorem vnodeOf_withVnode (s : Drivers (NyfsState D)) (child data vol ino type : Nat) :
    VnodeOf (withVnode s child data vol ino type) child vol ino := by
  refine ⟨data, ?_, ?_⟩
  · dsimp only [withVnode]
    rw [Function.update_self]
  · dsimp only [withVnode]
    rw [Function.update_self]

/-- A creation through the kernel, with vnodes left. -/
theorem nyfsMake_answer {n : Nat} (h : VnodeOf s n k i) (hroom : ¬NoVnode s) (isDir : Bool)
    (name : List UInt8) (mode : Nat) :
    ((nyfsMake isDir n name mode >>= madeNode) s).1 =
        (makeNode isDir i name mode s.fs.cred (s.fs.volumes k)).1.map .node ∧
      ((nyfsMake isDir n name mode >>= madeNode) s).2.fs.volumes k =
        (makeNode isDir i name mode s.fs.cred (s.fs.volumes k)).2 := by
  have hrun := nyfsMake_eq h isDir name mode
  cases hmake : makeNode isDir i name mode s.fs.cred (s.fs.volumes k) with
  | mk r v' =>
      rw [hmake] at hrun
      cases r with
      | error e =>
          rw [Eff.bind_error hrun]
          exact ⟨rfl, withVolume_self s k v'⟩
      | ok t =>
          rcases makeVnode_cases (withVolume s k v') k t (if isDir then 2 else 1) with
            ⟨child, data, -, -, hvnode⟩ | ⟨hno, -⟩
          · have hchild := vnodeOf_withVnode (withVolume s k v') child data k t
              (if isDir then 2 else 1)
            rw [Eff.bind_ok (hrun.trans hvnode), madeNode, answered_run, hchild.run]
            exact ⟨rfl, withVolume_self s k v'⟩
          · exact absurd hno hroom

/-! ## Removing -/

omit [ReliableDevice D] in
theorem reads_requireWritable : Eff.Reads (requireWritable : NyfsM D _) :=
  (Eff.reads_gets _).bind (fun _ => Eff.reads_ite (Eff.reads_pure _) (reads_failWith _))

/-- The host's removal, told the type of what it removes, is the kernel's. -/
theorem removeNode_expect {name : List UInt8} {cred : Cred} {expectDir : Bool}
    (hexpects : ∀ x, (targetNode i name v).1 = .ok x →
      (expectDir = true ↔ x.type = nyfsInoTypeDir)) :
    removeNode i name cred (some expectDir) v = removeNode i name cred none v := by
  rw [removeNode, removeNode]
  refine reads_requireWritable.bind_congr (fun _ _ => ?_)
  refine (reads_readDirInode i).bind_congr (fun dir hdir => ?_)
  refine (reads_checkAccess dir cred nyfsAceDeleteChild).bind_congr (fun _ _ => ?_)
  refine (reads_dirhashLookup dir name).bind_congr ?_
  rintro ⟨t, type⟩ hlookup
  refine (reads_readInode t).bind_congr (fun target htarget => ?_)
  have htype := hexpects target ((reads_lookupName i name).bind_eq_ok.mpr ⟨(t, type),
    (reads_readDirInode i).bind_eq_ok.mpr ⟨dir, hdir, hlookup⟩, htarget⟩)
  have hfile : ¬(some expectDir = some true ∧ target.type ≠ nyfsInoTypeDir) :=
    fun hno => hno.2 (htype.mp (Option.some.inj hno.1))
  have hdir : ¬(some expectDir = some false ∧ target.type = nyfsInoTypeDir) := by
    intro hno
    have hfalse := Option.some.inj hno.1
    rw [htype.mpr hno.2] at hfalse
    cases hfalse
  -- The kernel states no type, so neither test is made.
  have hnone : ∀ b : Bool, none ≠ some b := fun b => (Option.some_ne_none b).symm
  have hfile' : ¬(none = some true ∧ target.type ≠ nyfsInoTypeDir) := fun hno => hnone true hno.1
  have hdir' : ¬(none = some false ∧ target.type = nyfsInoTypeDir) := fun hno => hnone false hno.1
  rw [if_neg hfile, if_neg hdir, if_neg hfile', if_neg hdir']

/-! ## Reading and writing -/

/-- An open followed by a use of the inode is the use behind the access check. -/
theorem openNode_bind {α : Type} {cred : Cred} {flags : Nat} {m : NyfsM D α} {use : Inode → NyfsM D α}
    (hwritable : v.writable = true) (huse : ∀ x, (readInode i v).1 = .ok x → m v = use x v) :
    (openNode i flags cred >>= fun _ => m) v =
      (do
        let x ← readInode i
        checkAccess x cred (requestedMask flags)
        use x) v := by
  rw [openNode, Eff.bind_assoc_eq]
  refine (reads_readInode i).bind_congr (fun x hx => ?_)
  rw [Eff.bind_assoc_eq]
  refine (reads_checkAccess x cred _).bind_congr (fun _ _ => ?_)
  have hallowed : (if flags &&& nxOpenWrite ≠ 0 then requireWritable else pure () : NyfsM D Unit) v =
      (.ok (), v) := by
    split
    next =>
      rw [requireWritable, Eff.gets_bind_run, hwritable]
      rfl
    next => rfl
  rw [Eff.bind_ok hallowed]
  exact huse x hx

/-- {lit}`nyfs_open` and {lit}`nyfs_read` together are {lit}`nyfs_op_read`. -/
theorem openNode_fileRead (hwritable : v.writable = true) (cred : Cred) (offset size : Nat) :
    (openNode i nxOpenRead cred >>= fun _ => fileRead i offset size) v =
      opRead i cred offset size v := by
  refine openNode_bind hwritable (fun x hx => ?_)
  have hread := (reads_readInode i).run_eq v
  rw [hx] at hread
  exact Eff.bind_ok hread

/-- {lit}`nyfs_open` and {lit}`nyfs_write` together are {lit}`nyfs_op_write`. -/
theorem openNode_fileWrite (hwritable : v.writable = true) (cred : Cred) (offset : Nat)
    (bytes : List UInt8) :
    (openNode i nxOpenWrite cred >>= fun _ => fileWrite i offset bytes) v =
      opWrite i cred offset bytes v := by
  have hrequire : requireWritable v = (.ok (), v) := by
    rw [requireWritable, Eff.gets_bind_run, hwritable]
    rfl
  rw [opWrite, Eff.bind_ok hrequire]
  refine openNode_bind hwritable (fun x hx => ?_)
  have hread := (reads_readInode i).run_eq v
  rw [hx] at hread
  rw [fileWrite, Eff.bind_ok hrequire]
  exact Eff.bind_ok hread

/-- An open that is allowed, with handles left. -/
theorem nyfsOpen_ok {n flags : Nat} {handle : Handle} (h : VnodeOf s n k i)
    (hroom : firstFree (fun j => (s.fs.handleSlots j).inUse) nyfsMaxHandles ≠ none)
    (hopen : (openNode i flags s.fs.cred (s.fs.volumes k)).1 = .ok ()) :
    ∃ handle' s', nyfsOpen n flags handle s = (.ok handle', s') ∧ handle'.offset = handle.offset ∧
      handleEntry handle' s' = (.ok (k, i), s') ∧ s'.fs.volumes = s.fs.volumes := by
  have hrun := nyfsOpen_eq h flags handle
  obtain ⟨slot, hslot⟩ := Option.ne_none_iff_exists'.mp hroom
  rw [hopen, hslot] at hrun
  refine ⟨_, _, hrun, rfl, ?_, rfl⟩
  rw [handleEntry_eq, handleInode]
  dsimp only
  rw [Option.bind_some, Function.update_self]
  rfl

/-- A file that the kernel opens, with handles left, and uses. -/
theorem nyfsOpen_bind {α : Type} {n : Nat} (flags : Nat) (handle : Handle)
    (use : Handle → KernelM D α) (m : NyfsM D α) (h : VnodeOf s n k i)
    (hroom : firstFree (fun j => (s.fs.handleSlots j).inUse) nyfsMaxHandles ≠ none)
    (huse : ∀ s' handle', handleEntry handle' s' = (.ok (k, i), s') →
      handle'.offset = handle.offset → use handle' s' = onVolume k m s') :
    ((nyfsOpen n flags handle >>= use) s).1 =
        ((openNode i flags s.fs.cred >>= fun _ => m) (s.fs.volumes k)).1 ∧
      ((nyfsOpen n flags handle >>= use) s).2.fs.volumes k =
        ((openNode i flags s.fs.cred >>= fun _ => m) (s.fs.volumes k)).2 := by
  have hnode := (reads_openNode i flags s.fs.cred).run_eq (s.fs.volumes k)
  cases hr : (openNode i flags s.fs.cred (s.fs.volumes k)).1 with
  | error e =>
      have hrun := nyfsOpen_eq h flags handle
      rw [hr] at hnode hrun
      rw [Eff.bind_error hnode, Eff.bind_error hrun]
      exact ⟨rfl, rfl⟩
  | ok u =>
      obtain ⟨handle', s', hrun, hoffset, hentry, hvolumes⟩ := nyfsOpen_ok h hroom hr
      rw [hr] at hnode
      rw [Eff.bind_ok hnode, Eff.bind_ok hrun, huse s' handle' hentry hoffset, onVolume_eq,
        hvolumes]
      exact ⟨rfl, withVolume_self _ k _⟩

/-! ## Listing -/

omit [ReliableDevice D] in
theorem foundOr_map {α β : Type} (f : α → β) (o : Option α) :
    (foundOr o).map f = foundOr (o.map f) := by
  cases o with
  | none => rfl
  | some a => rfl

/-- A listing with less room for the name cuts the name. -/
theorem Inventory.does_readdirNode (hL : L.Valid) (h : Inventory L V nodes) (hi : Live L V i)
    (cred : Cred) (index : Nat) :
    ∃ r : Except Stop DirentView,
      Does L V (readdirNode i cred index nyfsNameMax : NyfsM D _) r V ∧
        ∀ room, Does L V (readdirNode i cred index room : NyfsM D _) (r.map (DirentView.cut room)) V := by
  have hread := h.toOwned.does_readDirInode (D := D) hL hi
  have haccess := (h.holds i hi).does_checkAccess (D := D) hL cred nyfsAceReadData
  by_cases htype : (V.inode i).type = nyfsInoTypeDir
  · rw [if_neg (not_not.mpr htype)] at hread
    by_cases hgrants : Grants V (V.inode i) cred nyfsAceReadData
    · rw [if_pos hgrants] at haccess
      obtain ⟨m, hstored⟩ := h.stored hi htype
      have hlist : ∀ room, Does L V (readdirNode i cred index room : NyfsM D _)
          (foundOr ((((nodes i).records.map (Record.view nyfsNameMax))[index]?).map
            (DirentView.cut room))) V :=
        fun room => hread.bind (haccess.bind (hstored.does_readdir hL index room))
      have hwhole := hlist nyfsNameMax
      rw [hstored.lists.cut_eq] at hwhole
      refine ⟨_, hwhole, fun room => ?_⟩
      rw [foundOr_map]
      exact hlist room
    · rw [if_neg hgrants] at haccess
      exact ⟨_, hread.bind haccess.bind_error, fun _ => hread.bind haccess.bind_error⟩
  · rw [if_pos htype] at hread
    exact ⟨_, hread.bind_error, fun _ => hread.bind_error⟩

/-! ## One volume -/

theorem answered_bind {σ α β : Type} (f : β → Answer) (m : Eff Stop σ α) (g : α → Eff Stop σ β) :
    answered f (m >>= g) = m >>= fun a => answered f (g a) :=
  Eff.bind_assoc_eq m g fun b => pure (f b)

/-- A file that the kernel opens and reads. -/
theorem FsCall.read_eq {file : Place} {offset size : Nat} (h : VnodeOf s file.vnode k file.ino)
    (hroom : (FsCall.read file offset size).HasRoom s)
    (hwritable : (s.fs.volumes k).writable = true) :
    ((FsCall.read file offset size).kernel s).1 =
        ((FsCall.read file offset size).host s.fs.cred (s.fs.volumes k)).1 ∧
      ((FsCall.read file offset size).kernel s).2.fs.volumes k =
        ((FsCall.read file offset size).host s.fs.cred (s.fs.volumes k)).2 := by
  obtain ⟨hanswer, hvolume⟩ := nyfsOpen_bind nxOpenRead ⟨some file.vnode, offset, nxOpenRead, none⟩
    (fun handle => nyfsRead handle size) (fileRead file.ino offset size) h hroom
    (fun s' handle' hentry hoffset => by
      rw [nyfsRead, Eff.bind_ok hentry, hoffset])
  rw [openNode_fileRead hwritable] at hanswer hvolume
  rw [FsCall.kernel, FsCall.host, ← answered_bind, answered_run, answered_run, hanswer, hvolume]
  exact ⟨rfl, rfl⟩

/-- A file that the kernel opens and writes. -/
theorem FsCall.write_eq {file : Place} {offset : Nat} {bytes : List UInt8}
    (h : VnodeOf s file.vnode k file.ino) (hroom : (FsCall.write file offset bytes).HasRoom s)
    (hwritable : (s.fs.volumes k).writable = true) :
    ((FsCall.write file offset bytes).kernel s).1 =
        ((FsCall.write file offset bytes).host s.fs.cred (s.fs.volumes k)).1 ∧
      ((FsCall.write file offset bytes).kernel s).2.fs.volumes k =
        ((FsCall.write file offset bytes).host s.fs.cred (s.fs.volumes k)).2 := by
  obtain ⟨hanswer, hvolume⟩ := nyfsOpen_bind nxOpenWrite ⟨some file.vnode, offset, nxOpenWrite, none⟩
    (fun handle => nyfsWrite handle bytes) (fileWrite file.ino offset bytes) h hroom
    (fun s' handle' hentry hoffset => by
      rw [nyfsWrite, Eff.bind_ok hentry, hoffset])
  rw [openNode_fileWrite hwritable] at hanswer hvolume
  rw [FsCall.kernel, FsCall.host, ← answered_bind, answered_run, answered_run, hanswer, hvolume]
  exact ⟨rfl, rfl⟩

/-- A directory that the kernel lists. -/
theorem FsCall.readdir_eq {dir : Place} {index nameRoom : Nat}
    (hsound : Sound L (s.fs.volumes k) nodes) (h : VnodeOf s dir.vnode k dir.ino)
    (hlive : Live L (s.fs.volumes k).view dir.ino) :
    ((FsCall.readdir dir index nameRoom).kernel s).1 =
        ((FsCall.readdir dir index nameRoom).host s.fs.cred (s.fs.volumes k)).1.map
          (FsCall.readdir dir index nameRoom).cut ∧
      ((FsCall.readdir dir index nameRoom).kernel s).2.fs.volumes k =
        ((FsCall.readdir dir index nameRoom).host s.fs.cred (s.fs.volumes k)).2 := by
  obtain ⟨r, hwhole, hcut⟩ := hsound.inventory.does_readdirNode (D := D) hsound.valid hlive s.fs.cred
    index
  obtain ⟨v₁, hwhole, -⟩ := hwhole.run hsound.valid hsound.mounted rfl
  obtain ⟨v₂, hcut, -⟩ := (hcut nameRoom).run hsound.valid hsound.mounted rfl
  have hanswer : (nyfsReaddir dir.vnode index (nameRoom + 1) s).1 = _ :=
    nyfsReaddir_eq h (Nat.succ_ne_zero nameRoom)
  rw [Nat.succ_sub_one, hcut] at hanswer
  change (answered _ (nyfsReaddir dir.vnode index (nameRoom + 1)) s).1 =
      (answered _ (opReaddirAt dir.ino s.fs.cred index) (s.fs.volumes k)).1.map _ ∧
    (answered _ (nyfsReaddir dir.vnode index (nameRoom + 1)) s).2.fs.volumes k =
      (answered _ (opReaddirAt dir.ino s.fs.cred index) (s.fs.volumes k)).2
  rw [answered_run, answered_run, nyfsReaddir_state h, hanswer, opReaddirAt,
    reads_readdirNode dir.ino s.fs.cred index nyfsNameMax, hwhole]
  refine ⟨?_, rfl⟩
  cases r with
  | ok view => rfl
  | error e => rfl

theorem FsCall.map_cut {q : FsCall} (hcut : ∀ a, q.cut a = a) (r : Except Stop Answer) :
    r.map q.cut = r := by
  cases r with
  | ok a => exact congrArg Except.ok (hcut a)
  | error e => rfl

/-- On one volume the kernel driver and the host library do the same. -/
theorem FsCall.kernel_eq (q : FsCall) (hsound : Sound L (s.fs.volumes k) nodes)
    (hq : q.Issued k s) :
    (q.kernel s).1 = (q.host s.fs.cred (s.fs.volumes k)).1.map q.cut ∧
      (q.kernel s).2.fs.volumes k = (q.host s.fs.cred (s.fs.volumes k)).2 := by
  have hwritable := hsound.mounted.writable
  cases q with
  | create dir name mode =>
      have hmake := nyfsMake_answer (hq.vnodes dir List.mem_cons_self) hq.room false name mode
      rw [← makeNode_mode] at hmake
      rw [FsCall.map_cut (q := .create dir name mode) (fun _ => rfl), FsCall.host, answered_run]
      exact hmake
  | mkdir dir name mode =>
      have hmake := nyfsMake_answer (hq.vnodes dir List.mem_cons_self) hq.room true name mode
      rw [← makeNode_mode] at hmake
      rw [FsCall.map_cut (q := .mkdir dir name mode) (fun _ => rfl), FsCall.host, answered_run]
      exact hmake
  | remove dir name expectDir =>
      rw [FsCall.map_cut (q := .remove dir name expectDir) (fun _ => rfl), FsCall.host, FsCall.kernel, answered_run, answered_run,
        nyfsUnlink_eq (hq.vnodes dir List.mem_cons_self), onVolume_eq, opRemove,
        removeNode_expect hq.expects]
      exact ⟨rfl, withVolume_self s k _⟩
  | rename oldDir oldName newDir newName =>
      obtain ⟨hanswer, hvolume⟩ := nyfsRename_eq (hq.vnodes oldDir List.mem_cons_self)
        (hq.vnodes newDir (List.mem_cons_of_mem _ List.mem_cons_self)) oldName newName
      rw [FsCall.map_cut (q := .rename oldDir oldName newDir newName) (fun _ => rfl), FsCall.host, FsCall.kernel, answered_run, answered_run, hanswer,
        hvolume, opRename]
      exact ⟨rfl, rfl⟩
  | read file offset size =>
      rw [FsCall.map_cut (q := .read file offset size) (fun _ => rfl)]
      exact FsCall.read_eq (hq.vnodes file List.mem_cons_self) hq.room hwritable
  | write file offset bytes =>
      rw [FsCall.map_cut (q := .write file offset bytes) (fun _ => rfl)]
      exact FsCall.write_eq (hq.vnodes file List.mem_cons_self) hq.room hwritable
  | readdir dir index nameRoom =>
      exact FsCall.readdir_eq hsound (hq.vnodes dir List.mem_cons_self)
        ((hq.found dir List.mem_cons_self).live hsound.valid hsound.mounted hsound.inventory)

/-! ## Two volumes -/

/-- A request through the host keeps the inventory. -/
theorem FsCall.does_host (hL : L.Valid) (h : Inventory L V nodes) (q : FsCall)
    (hlive : ∀ place ∈ q.places, Live L V place.ino) {cred : Cred} (hcred : cred.Fits) :
    ∃ r V' nodes', Does L V (q.host cred : NyfsM D _) r V' ∧ Inventory L V' nodes' := by
  cases q with
  | create dir name mode =>
      obtain ⟨r, V', nodes', hdoes, hinv, -⟩ := h.makeNode (D := D) hL
        (hlive dir List.mem_cons_self) false name (mode % 2 ^ 16) hcred
      exact ⟨_, V', nodes', hdoes.answered .node, hinv⟩
  | mkdir dir name mode =>
      obtain ⟨r, V', nodes', hdoes, hinv, -⟩ := h.makeNode (D := D) hL
        (hlive dir List.mem_cons_self) true name (mode % 2 ^ 16) hcred
      exact ⟨_, V', nodes', hdoes.answered .node, hinv⟩
  | remove dir name expectDir =>
      obtain ⟨r, V', nodes', hdoes, hinv, -⟩ := h.removeNode (D := D) hL
        (hlive dir List.mem_cons_self) name cred (some expectDir)
      exact ⟨_, V', nodes', hdoes.answered (fun _ => .done), hinv⟩
  | rename oldDir oldName newDir newName =>
      obtain ⟨r, V', nodes', hdoes, hinv, -⟩ := h.renameNode (D := D) hL
        (hlive oldDir List.mem_cons_self)
        (hlive newDir (List.mem_cons_of_mem _ List.mem_cons_self)) oldName newName cred
      exact ⟨_, V', nodes', hdoes.answered (fun _ => .done), hinv⟩
  | read file offset size =>
      exact ⟨_, V, nodes, (h.does_opRead hL (hlive file List.mem_cons_self) cred offset size).answered
        .data, h⟩
  | write file offset bytes =>
      obtain ⟨r, V', nodes', hdoes, hinv, -⟩ := h.opWrite (D := D) hL
        (hlive file List.mem_cons_self) cred offset bytes
      exact ⟨_, V', nodes', hdoes.answered .written, hinv⟩
  | readdir dir index nameRoom =>
      obtain ⟨r, hdoes, -⟩ := h.does_readdirNode (D := D) hL (hlive dir List.mem_cons_self) cred index
      exact ⟨_, V, nodes, hdoes.answered (fun view => .entry view.name view.type), h⟩

/-- Two volumes that agree but for the mount counter. -/
structure Twins (L : Layout) (V : View) (v w : Volume D) : Prop where
  shows : ∃ S : Store, S.view L = V ∧ Shows L v S ∧ Shows L w S
  superblock : w.sb.uncounted = v.sb.uncounted

/-- A call does the same on both. -/
theorem Does.twins {α : Type} {m : NyfsM D α} {r : Except Stop α} (h : Does L V m r V')
    (ht : Twins L V v w) : (m v).1 = r ∧ (m w).1 = r ∧ Twins L V' (m v).2 (m w).2 := by
  obtain ⟨⟨S, hS, hv, hw⟩, hsb⟩ := ht
  obtain ⟨S', hS', hrun⟩ := h S hS
  obtain ⟨v', hmv, hv', hcore⟩ := hrun v hv
  obtain ⟨w', hmw, hw', hcore'⟩ := hrun w hw
  rw [hmv, hmw]
  refine ⟨rfl, rfl, ⟨S', hS', hv', hw'⟩, ?_⟩
  have huncounted : ∀ {x y : Superblock}, x.core = y.core → x.uncounted = y.uncounted := by
    intro x y hxy
    rw [Superblock.uncounted, hxy, Superblock.uncounted]
  rw [huncounted hcore, huncounted hcore', hsb]

theorem Twins.sound (h : Twins L V v w) (hL : L.Valid) (hinv : Inventory L V nodes) :
    Sound L v nodes := by
  obtain ⟨S, rfl, hv, -⟩ := h.shows
  rw [← hv.view_eq hL] at hinv
  exact ⟨hL, hv.mounted, hinv⟩

/-! ## Images -/

/-- The place of the mount counter in the superblock. -/
def mountCountOffset : Nat := 136

/-- Two devices hold the same bytes, but for the superblock's mount counter and checksum. -/
def SameImage (d d' : D) : Prop :=
  ∀ o, (o < mountCountOffset ∨ mountCountOffset + 8 ≤ o) →
    (o < superblockSumOffset ∨ superblockSumOffset + 4 ≤ o) →
      ReliableDevice.content d' o = ReliableDevice.content d o

omit [ReliableDevice D] in
/-- A string with a part replaced by one of the same length is the same outside it. -/
theorem getElem?_replaced {α : Type} {front part part' rest : List α} {o : Nat}
    (hlength : part'.length = part.length)
    (ho : o < front.length ∨ front.length + part.length ≤ o) :
    (front ++ part' ++ rest)[o]? = (front ++ part ++ rest)[o]? := by
  rw [List.append_assoc, List.append_assoc]
  rcases ho with ho | ho
  · rw [List.getElem?_append_left ho, List.getElem?_append_left ho]
  · rw [List.getElem?_append_right (by omega), List.getElem?_append_right (by omega),
      List.getElem?_append_right (by omega), List.getElem?_append_right (by omega), hlength]

omit [ReliableDevice D] in
theorem encodeSuperblock_checksum (sb : Superblock) (sum : Nat) {o : Nat}
    (ho : o < superblockSumOffset ∨ superblockSumOffset + 4 ≤ o) :
    (encodeSuperblock { sb with checksum := sum })[o]? = (encodeSuperblock sb)[o]? := by
  rw [encodeSuperblock_split, encodeSuperblock_split, ← List.append_assoc, ← List.append_assoc]
  refine getElem?_replaced (by rw [length_leBytes, length_leBytes]) ?_
  rw [length_leBytes]
  rw [← length_superblockFront sb] at ho
  exact ho

omit [ReliableDevice D] in
theorem encodeSuperblock_mountCount (sb : Superblock) (count : Nat) {o : Nat}
    (ho : o < mountCountOffset ∨ mountCountOffset + 8 ≤ o) :
    (encodeSuperblock { sb with mountCount := count })[o]? = (encodeSuperblock sb)[o]? := by
  have hsplit : ∀ x : Superblock, encodeSuperblock x = pack (x.fields.take 20) ++
      leBytes 8 x.mountCount ++ pack (x.fields.drop 21) := by
    intro x
    rw [encodeSuperblock]
    conv_lhs => rw [← List.take_append_drop 20 x.fields, pack_append]
    rw [List.append_assoc]
    rfl
  have hfront : (pack (sb.fields.take 20)).length = mountCountOffset := by
    rw [length_pack]
    simp [Superblock.fields, mountCountOffset]
  rw [hsplit, hsplit]
  refine getElem?_replaced (by rw [length_leBytes, length_leBytes]) ?_
  rw [length_leBytes]
  rw [← hfront] at ho
  exact ho

omit [ReliableDevice D] in
/-- Superblocks that differ in the mount counter alone, before they are sealed. -/
theorem Superblock.eq_of_uncounted {x y : Superblock} (h : x.uncounted = y.uncounted)
    (hblocks : x.freeBlocks = y.freeBlocks) (hinodes : x.freeInodeCount = y.freeInodeCount) :
    x = { y with mountCount := x.mountCount, checksum := x.checksum } := by
  cases x
  cases y
  simp only [Superblock.uncounted, Superblock.core, Superblock.mk.injEq] at *
  simp_all

theorem Twins.sameImage (h : Twins L V v w) : SameImage v.disk w.disk := by
  obtain ⟨S, -, hv, hw⟩ := h.shows
  intro o hcount hsum
  by_cases ho : 256 ≤ o
  · rw [hw.image o ho, hv.image o ho]
  · have hsb := Superblock.eq_of_uncounted h.superblock (hw.freeBlocks.trans hv.freeBlocks.symm)
      (hw.freeInodes.trans hv.freeInodes.symm)
    have hbytes : (encodeSuperblock w.sb)[o]? = (encodeSuperblock v.sb)[o]? := by
      rw [hsb, encodeSuperblock_checksum { v.sb with mountCount := w.sb.mountCount } _ hsum,
        encodeSuperblock_mountCount _ _ hcount]
    rw [← hw.superblock, ← hv.superblock, getElem?_bytesAt _ 0 (by omega),
      getElem?_bytesAt _ 0 (by omega), Nat.zero_add] at hbytes
    exact Option.some.inj hbytes

/-! ## Images that formats lead to -/

/-- The volumes that come from a format by requests and by opening the device again. -/
inductive Served (p : MkfsParams) (d : D) : Volume D → Prop
  | opened {d' : D} {v : Volume D} (hformat : nyfsFormat d p = (.ok (), d')) (hopen : Opens d' v) :
      Served p d v
  | reopened {v w : Volume D} (h : Served p d v) (hopen : Opens v.disk w) : Served p d w
  | step {v : Volume D} (h : Served p d v) (q : Request) (hfits : q.Fits)
      (hfound : ∀ i ∈ q.inodes, Found v i) : Served p d (q.exec v).2

/-- One session is enough for the volumes that requests reach. -/
theorem Reachable.served (h : Reachable anyRequest p d v) : Served p d v := by
  induction h with
  | opened hformat hopen => exact Served.opened hformat hopen
  | step _ q hfits hfound _ ih => exact Served.step ih q hfits hfound

/-- A sound volume whose superblock is the format's, but for the counters. -/
structure Formed (p : MkfsParams) (v : Volume D) : Prop where
  accepted : p.Accepted
  sound : ∃ nodes, Sound p.layout v nodes
  superblock : v.sb.uncounted = p.superblock.core
  mountCount : v.sb.mountCount < 2 ^ 64

omit [ReliableDevice D] in
theorem Superblock.core_fits_of_uncounted {sb : Superblock} (h : sb.uncounted.Fits)
    (hcount : sb.mountCount < 2 ^ 64) : sb.core.Fits := by
  have h8 : (256 : Nat) ^ 8 = 2 ^ 64 := by norm_num
  unfold Superblock.Fits Superblock.fields Superblock.uncounted Superblock.core at *
  simp only [List.forall_mem_cons, List.not_mem_nil, false_imp_iff, implies_true, and_true,
    h8] at h ⊢
  tauto

/-- Such a volume can be opened again. -/
theorem Formed.openable (h : Formed p v) (hsmall : p.Small) :
    v.sb.Fits ∧ checkSuperblock v.sb = none := by
  obtain ⟨nodes, hsound⟩ := h.sound
  obtain ⟨hblocks, hinodes⟩ := View.freeCounts hsound.valid hsound.inventory.ready
  constructor
  · rw [Superblock.fits_iff]
    refine ⟨Superblock.core_fits_of_uncounted ?_ h.mountCount, hblocks, hinodes, ?_⟩
    · rw [h.superblock]
      exact hsmall.core_fits h.accepted.shift
    · rw [← hsound.mounted.sealed]
      exact nyfsCrc32_lt _
  · exact checkSuperblock_of_uncounted h.accepted.shift h.superblock hsound.mounted.sealed

/-- Opening counts the mount or leaves the superblock as it is. -/
theorem Mounted.opens_superblock (hv : Mounted L v) (hfits : v.sb.Fits)
    (hcheck : checkSuperblock v.sb = none) (hopen : Opens v.disk w) :
    w.sb.uncounted = v.sb.uncounted ∧
      (v.sb.mountCount < 2 ^ 64 → w.sb.mountCount < 2 ^ 64) := by
  cases hopen with
  | host h =>
      obtain ⟨v', heq, -, hsb⟩ := hv.volumeOpen_run hfits hcheck
      rw [heq] at h
      obtain ⟨-, rfl⟩ := Prod.mk.inj h
      rw [hsb]
      exact ⟨rfl, fun _ => Nat.mod_lt _ (by decide)⟩
  | kernel h =>
      obtain ⟨v', heq, hsb, -⟩ := hv.mountVolume_eq hfits hcheck
      rw [heq] at h
      obtain ⟨-, rfl⟩ := Prod.mk.inj h
      rw [hsb]
      exact ⟨rfl, id⟩

theorem Sound.opens (h : Sound L v nodes) (hfits : v.sb.Fits) (hcheck : checkSuperblock v.sb = none)
    (hopen : Opens v.disk w) : Sound L w nodes := by
  obtain ⟨hw, hview⟩ := h.mounted.opens h.valid hfits hcheck hopen
  refine ⟨h.valid, hw, ?_⟩
  rw [hview]
  exact h.inventory

theorem Formed.reopen (h : Formed p v) (hsmall : p.Small) (hopen : Opens v.disk w) : Formed p w := by
  obtain ⟨hfits, hcheck⟩ := h.openable hsmall
  obtain ⟨nodes, hsound⟩ := h.sound
  obtain ⟨huncounted, hcount⟩ := hsound.mounted.opens_superblock hfits hcheck hopen
  exact ⟨h.accepted, ⟨nodes, hsound.opens hfits hcheck hopen⟩, huncounted.trans h.superblock,
    hcount h.mountCount⟩

/-- A request leaves the superblock's core. -/
theorem Sound.exec_core (h : Sound L v nodes) (q : Request) (hfits : q.Fits)
    (hfound : ∀ i ∈ q.inodes, Found v i) : (q.exec v).2.sb.core = v.sb.core := by
  obtain ⟨r, V', nodes', hdoes, -⟩ := q.effect (D := D) h.valid h.inventory hfits
    (fun i hi => (hfound i hi).live h.valid h.mounted h.inventory)
  obtain ⟨v', hrun, -, -, hcore⟩ := hdoes.run h.valid h.mounted rfl
  rw [hrun]
  exact hcore

theorem Served.formed (hsmall : p.Small) (h : Served p d v) : Formed p v := by
  induction h with
  | opened hformat hopen =>
      obtain ⟨haccepted, w, rfl, hw, hcore, nodes, hfresh⟩ := format_leaves hsmall hformat
      have hL := hsmall.valid haccepted.shift haccepted.fits
      have hcount : w.sb.mountCount = 0 := congrArg Superblock.mountCount hcore
      have hformed : Formed p w := ⟨haccepted, ⟨nodes, hL, hw, hfresh.inventory⟩,
        uncounted_of_core hcore, by rw [hcount]; decide⟩
      exact hformed.reopen hsmall hopen
  | reopened _ hopen ih => exact ih.reopen hsmall hopen
  | step _ q hfits hfound ih =>
      obtain ⟨nodes, hsound⟩ := ih.sound
      obtain ⟨nodes', hsound', -⟩ := hsound.exec q hfits hfound
      have hcore := hsound.exec_core q hfits hfound
      refine ⟨ih.accepted, ⟨nodes', hsound'⟩, ?_, ?_⟩
      · rw [← ih.superblock, Superblock.uncounted, hcore, Superblock.uncounted]
      · have hcount := congrArg Superblock.mountCount hcore
        exact lt_of_eq_of_lt hcount ih.mountCount

/-! ## Runs -/

/-- A volume of the kernel and one of the host with the same content. -/
def Paired (L : Layout) (v w : Volume D) : Prop :=
  ∃ V nodes, Inventory L V nodes ∧ Twins L V v w

/-- The same image, mounted by the kernel and opened by the host. -/
theorem Formed.paired {a b : Volume D} (h : Formed p v) (hsmall : p.Small)
    (hkernel : mountVolume v.disk true = (.ok (), a))
    (hhost : volumeOpen v.disk true = (.ok (), b)) : Paired p.layout a b := by
  obtain ⟨hfits, hcheck⟩ := h.openable hsmall
  obtain ⟨nodes, hsound⟩ := h.sound
  obtain ⟨a', ha, hsba, hshowsa⟩ := hsound.mounted.mountVolume_eq hfits hcheck
  obtain ⟨b', hb, hshowsb, hsbb⟩ := hsound.mounted.volumeOpen_run hfits hcheck
  rw [ha] at hkernel
  rw [hb] at hhost
  obtain ⟨-, rfl⟩ := Prod.mk.inj hkernel
  obtain ⟨-, rfl⟩ := Prod.mk.inj hhost
  refine ⟨v.view, nodes, hsound.inventory, ⟨v.store, ?_, hshowsa, hshowsb⟩, ?_⟩
  · rw [Volume.view, hsound.mounted.layout]
  · rw [hsba, hsbb]
    rfl

/-- One request to both. -/
theorem Paired.request (hL : L.Valid) (h : Paired L (s.fs.volumes k) w) (q : FsCall)
    (hq : q.Issued k s) :
    (q.kernel s).1 = (q.host s.fs.cred w).1.map q.cut ∧
      Paired L ((q.kernel s).2.fs.volumes k) (q.host s.fs.cred w).2 := by
  obtain ⟨V, nodes, hinv, htwins⟩ := h
  have hsound := htwins.sound hL hinv
  obtain ⟨hanswer, hvolume⟩ := q.kernel_eq hsound hq
  have hview : (s.fs.volumes k).view = V := by
    obtain ⟨S, rfl, hv, -⟩ := htwins.shows
    exact hv.view_eq hL
  obtain ⟨r, V', nodes', hdoes, hinv'⟩ := FsCall.does_host (D := D) hL hinv q
    (fun place hplace => by
      rw [← hview]
      exact (hq.found place hplace).live hL hsound.mounted hsound.inventory) hq.cred
  obtain ⟨hv, hw, htwins'⟩ := hdoes.twins htwins
  rw [hanswer, hvolume, hv, hw]
  exact ⟨rfl, V', nodes', hinv', htwins'⟩

/-- The runs of both: requests that are made to both, and between them anything else that the kernel
does and that leaves the volume as it is. -/
inductive PairRun (k : Nat) (s : Drivers (NyfsState D)) (w : Volume D) :
    Drivers (NyfsState D) → Volume D → Prop
  | start : PairRun k s w s w
  | elsewhere {s₁ s₂ : Drivers (NyfsState D)} {w₁ : Volume D} (h : PairRun k s w s₁ w₁)
      (hsame : s₂.fs.volumes k = s₁.fs.volumes k) : PairRun k s w s₂ w₁
  | request {s₁ : Drivers (NyfsState D)} {w₁ : Volume D} (h : PairRun k s w s₁ w₁) (q : FsCall)
      (hq : q.Issued k s₁) : PairRun k s w (q.kernel s₁).2 (q.host s₁.fs.cred w₁).2

theorem PairRun.paired {s' : Drivers (NyfsState D)} {w' : Volume D} (h : PairRun k s w s' w')
    (hL : L.Valid) (hstart : Paired L (s.fs.volumes k) w) : Paired L (s'.fs.volumes k) w' := by
  induction h with
  | start => exact hstart
  | elsewhere _ hsame ih =>
      rw [hsame]
      exact ih
  | request _ q hq ih => exact (ih.request hL q hq).2

/-- In every run that starts with the same image in the kernel and in the host the two images stay the
same, and every request gets the same answer from both. -/
theorem kernel_and_host_agree {s' : Drivers (NyfsState D)} {w' : Volume D} (hsmall : p.Small)
    (h : Served p d v) (hkernel : mountVolume v.disk true = (.ok (), s.fs.volumes k))
    (hhost : volumeOpen v.disk true = (.ok (), w)) (hrun : PairRun k s w s' w') :
    SameImage (s'.fs.volumes k).disk w'.disk ∧
      ∀ q : FsCall, q.Issued k s' →
        (q.kernel s').1 = (q.host s'.fs.cred w').1.map q.cut := by
  have hformed := h.formed hsmall
  have hL : p.layout.Valid := hsmall.valid hformed.accepted.shift hformed.accepted.fits
  have hpaired := hrun.paired hL (hformed.paired hsmall hkernel hhost)
  refine ⟨?_, fun q hq => (hpaired.request hL q hq).1⟩
  obtain ⟨V, nodes, -, htwins⟩ := hpaired
  exact htwins.sameImage

/-- A small volume with a file in its root directory.  The kernel and the host rename the file and
then make one of the old name. -/
theorem kernel_and_host_agree_tiny : ∃ (s : Drivers (NyfsState MemoryDisk)) (w : Volume MemoryDisk)
    (q q' : FsCall), (tinyParams 114).Small ∧ q.Issued 0 s ∧ q'.Issued 0 (q.kernel s).2 ∧
      SameImage ((q.kernel s).2.fs.volumes 0).disk (q.host s.fs.cred w).2.disk ∧
      (q'.kernel (q.kernel s).2).1 =
        (q'.host (q.kernel s).2.fs.cred (q.host s.fs.cred w).2).1.map q'.cut := by
  have hsmall : (tinyParams 114).Small := ⟨by decide, by decide⟩
  obtain ⟨v, -, hreach, -⟩ := tiny_file (D := MemoryDisk) anyRequest (Or.inl rfl) ⟨fun _ => 0⟩
    nameOk_a (fun _ => trivial)
  have hformed := hreach.served.formed hsmall
  obtain ⟨hfits, hcheck⟩ := hformed.openable hsmall
  obtain ⟨nodes, hsound⟩ := hformed.sound
  obtain ⟨a, hkernel, -⟩ := hsound.mounted.mountVolume_eq hfits hcheck
  obtain ⟨b, hhost, -⟩ := hsound.mounted.volumeOpen_eq hfits hcheck
  have hroot := vnodeOf_withVnode (freshDrivers a) 0 0 0 nyfsRootIno 2
  generalize hs : withVnode (freshDrivers a) 0 0 0 nyfsRootIno 2 = s at hroot
  have hplaces : ∀ place ∈ [(⟨0, nyfsRootIno⟩ : Place), ⟨0, nyfsRootIno⟩],
      place = ⟨0, nyfsRootIno⟩ := by
    intro place hplace
    simpa using hplace
  have hcred : s.fs.cred.Fits := by
    rw [← hs]
    exact superuser_fits
  let q := FsCall.rename ⟨0, nyfsRootIno⟩ [97] ⟨0, nyfsRootIno⟩ [98]
  have hq : q.Issued 0 s := by
    refine ⟨fun place hplace => ?_, fun place hplace => ?_, hcred, trivial, trivial⟩
    · rw [hplaces place hplace]
      exact hroot
    · rw [hplaces place hplace]
      exact Found.root
  have hstate : (q.kernel s).2 =
      withVolume s 0 (renameNode nyfsRootIno [97] nyfsRootIno [98] s.fs.cred (s.fs.volumes 0)).2 := by
    change (answered _ (nyfsRename 0 [97] (some 0) [98]) s).2 = _
    rw [answered_run, nyfsRename_run hroot hroot, onVolume_eq]
  let q' := FsCall.create ⟨0, nyfsRootIno⟩ [97] 0o644
  have hq' : q'.Issued 0 (q.kernel s).2 := by
    rw [hstate]
    refine ⟨fun place hplace => ?_, fun place hplace => ?_, hcred, ?_, trivial⟩
    · rw [List.mem_singleton.mp hplace]
      exact ⟨hroot.entry⟩
    · rw [List.mem_singleton.mp hplace]
      exact Found.root
    · rw [← hs]
      rintro (hno | hno)
      · exact Option.some_ne_none 1 hno
      · exact Option.some_ne_none 1 hno
  have hvolume : s.fs.volumes 0 = a := by
    rw [← hs]
    rfl
  rw [← hvolume] at hkernel
  obtain ⟨hsame, hanswers⟩ := kernel_and_host_agree hsmall hreach.served hkernel hhost
    (PairRun.request PairRun.start q hq)
  exact ⟨s, b, q, q', hsmall, hq, hq', hsame, hanswers q' hq'⟩

end Nyfs
end Nyxis
