import Nyxis.Nyfs.FileTree
import Nyxis.Nyfs.Fuse

/-!
# What the requests of the host mean

What the requests mean is told on the tree alone: which of them are granted, what they answer and
what they do to the tree.

Main results:

- Definition {lit}`Serves`: the meaning of a request that succeeds.
- Definition {lit}`TreeStep`: the meaning of a request, errors included.
-/

namespace Nyxis
namespace Nyfs

open NameTree

variable {cred : Cred}

namespace Fuse

/-! ## Places -/

/-- The names in front of the last slash of a path. -/
def dirOf (path : List UInt8) : Names :=
  cutComponents (parentParts path).1

/-- The name behind the last slash of a path. -/
def nameOf (path : List UInt8) : List UInt8 :=
  (parentParts path).2

/-- The place that a call makes, removes or renames. -/
def placeOf (path : List UInt8) : Names :=
  dirOf path ++ [nameOf path]

/-- The directory part of a path leads to an object. -/
structure ParentAt (t : FileTree) (cred : Cred) (path : List UInt8) (dir : Object) : Prop where
  accepted : PartsAccepted path (nyfsNameMax + 1)
  resolves : ShowsAt t cred (dirOf path) dir
  rootSearch : (parentParts path).1 = [] → dir.Grants cred nyfsAceExecute

/-- The place of an open file, or of the path when there is none. -/
def TargetAt (t : FileTree) (cred : Cred) (path : List UInt8) (fh : Option Nat) (place : Names)
    (o : Object) : Prop :=
  match fh with
  | none => place = cutComponents path ∧ ShowsAt t cred place o
  | some ino => t place = some o ∧ o.ino = ino

/-- The handle that {lit}`op_read` and {lit}`op_write` use. -/
def handleOf (fh : Nat) : Option Nat :=
  if fh = nyfsInoNone then none else some fh

/-! ## Changes of an object -/

/-- An object with changed attributes. -/
def changed (a : AttrChange) (o : Object) : Object :=
  { o with
    mode := (a.mode.map (· &&& 0x0FFF)).getD o.mode
    uid := (a.owner.map Prod.fst).getD o.uid
    gid := (a.owner.map Prod.snd).getD o.gid
    mtime := a.mtime.getD o.mtime
    atime := a.atime.getD o.atime }

/-- Who may change the attributes. -/
def Owns (cred : Cred) (o : Object) : Prop :=
  cred.uid = 0 ∨ cred.uid = o.uid

instance (cred : Cred) (o : Object) : Decidable (Owns cred o) :=
  inferInstanceAs (Decidable (_ ∨ _))

/-- The attributes after a write. -/
def touched (cred : Cred) (now : Nat) (o : Object) : Object :=
  if Owns cred o then changed ⟨none, none, keepTime now, none⟩ o else o

/-- An object after bytes have been written to it.  The bytes between its old end and the place of
the write are not told. -/
structure Wrote (o : Object) (off : Nat) (bytes : List UInt8) (o' : Object) : Prop where
  attributes : ({ o' with size := 0, content := [] } : Object) = { o with size := 0, content := [] }
  size : o'.size = max o.size (off + bytes.length)
  stored : ∀ k, k < bytes.length → o'.content[off + k]? = bytes[k]?
  kept : ∀ k, k < off ∨ off + bytes.length ≤ k → k < o.content.length →
    o'.content[k]? = o.content[k]?
  whole : bytes ≠ [] → o.content.length = o.size → o'.content.length = o'.size

/-! ## The meaning of the requests -/

/-- The object at a place has none below it. -/
def Empty (t : FileTree) (place : Names) : Prop :=
  ∀ name, t (place ++ [name]) = none

/-- The children of a place in some order, each once. -/
structure Lists (t : FileTree) (place : Names) (children : List (List UInt8 × Object)) : Prop where
  nodup : (children.map Prod.fst).Nodup
  mem : ∀ name o, (name, o) ∈ children ↔ t (place ++ [name]) = some o

/-- The entry of a child. -/
def childEntry (slot : Nat) (child : List UInt8 × Object) : DirEntry :=
  ⟨child.1, child.2.ino, if child.2.isDir = true then sIfdir else sIfreg, slot + 1⟩

/-- The entries of a directory: itself, its parent, which gets the same number, and its children. -/
def listing (o : Object) (children : List (List UInt8 × Object)) : List DirEntry :=
  ⟨[46], o.ino, sIfdir, 1⟩ :: ⟨[46, 46], o.ino, sIfdir, 2⟩ ::
    children.mapIdx (fun k child => childEntry (k + 2) child)

/-- A place where a call may make an object. -/
structure MakesAt (t : FileTree) (cred : Cred) (path : List UInt8) (dir : Object) : Prop where
  parent : ParentAt t cred path dir
  isDir : dir.isDir = true
  grants : dir.Grants cred nyfsAceWriteData
  free : t (placeOf path) = none

/-- An object that a call may remove. -/
structure RemovesAt (t : FileTree) (cred : Cred) (path : List UInt8) (isDir : Bool) (dir o : Object) :
    Prop where
  parent : ParentAt t cred path dir
  parentIsDir : dir.isDir = true
  grants : dir.Grants cred nyfsAceDeleteChild
  object : t (placeOf path) = some o
  kind : o.isDir = isDir
  empty : isDir = true → Empty t (placeOf path)

/-- An object that a call may rename, and the directories of the two names. -/
structure RenamesAt (t : FileTree) (cred : Cred) (oldPath newPath : List UInt8)
    (dir dir' o : Object) : Prop where
  parent : ParentAt t cred oldPath dir
  parent' : ParentAt t cred newPath dir'
  isDir : dir.isDir = true
  isDir' : dir'.isDir = true
  grants : dir.Grants cred nyfsAceDeleteChild
  grants' : dir'.Grants cred nyfsAceWriteData
  object : t (placeOf oldPath) = some o

/-- The attributes that an object is shown with. -/
def statOf (blockSize : Nat) (o : Object) : Stat where
  ino := o.ino
  mode := (if o.isDir = true then sIfdir else sIfreg) ||| (o.mode &&& 0o7777)
  nlink := 1
  uid := o.uid
  gid := o.gid
  size := o.size
  blksize := blockSize
  blocks := (o.size + 511) % 2 ^ 64 / 512
  mtime := timespec o.mtime
  atime := timespec o.atime
  ctime := timespec o.ctime

/-- What a request that succeeds answers and what it does to the tree. -/
inductive Serves (bs : Nat) (cred : Cred) (t : FileTree) : FuseCall → Response → FileTree → Prop
  | getattr {path : List UInt8} {o : Object} (h : ShowsAt t cred (cutComponents path) o) :
      Serves bs cred t (.getattr path) ⟨0, .attributes (statOf bs o)⟩ t
  | openFile {path : List UInt8} {o : Object} (h : ShowsAt t cred (cutComponents path) o) :
      Serves bs cred t (.openFile path) ⟨0, .handle o.ino⟩ t
  | readdir {path : List UInt8} {offset room : Nat} {o : Object} {children : List (List UInt8 × Object)}
      (h : ShowsAt t cred (cutComponents path) o)
      (hgrants : offset + room < 2 ∨ o.isDir = true ∧ o.Grants cred nyfsAceReadData)
      (hlists : Lists t (cutComponents path) children) :
      Serves bs cred t (.readdir path offset room)
        ⟨0, .entries (((listing o children).drop offset).take room)⟩ t
  | mkdir {path : List UInt8} {mode ino : Nat} {dir : Object} (h : MakesAt t cred path dir)
      (hino : ∀ q a, t q = some a → a.ino ≠ ino) :
      Serves bs cred t (.mkdir path mode) ⟨0, .nothing⟩
        (Function.update t (placeOf path) (some (newObject ino true (mode % 2 ^ 16) cred)))
  | create {path : List UInt8} {mode ino : Nat} {dir : Object} (h : MakesAt t cred path dir)
      (hino : ∀ q a, t q = some a → a.ino ≠ ino) :
      Serves bs cred t (.create path mode) ⟨0, .handle ino⟩
        (Function.update t (placeOf path) (some (newObject ino false (mode % 2 ^ 16) cred)))
  | read {path : List UInt8} {size offset fh : Nat} {place : Names} {o : Object}
      (h : TargetAt t cred path (handleOf fh) place o) (hgrants : o.Grants cred nyfsAceReadData) :
      Serves bs cred t (.read path size offset fh) ⟨((o.content.drop offset).take size).length,
        .bytes ((o.content.drop offset).take size)⟩ t
  | write {path bytes : List UInt8} {offset fh now : Nat} {place : Names} {o o' : Object}
      (h : TargetAt t cred path (handleOf fh) place o) (hgrants : o.Grants cred nyfsAceWriteData)
      (hwrote : Wrote o offset bytes o') :
      Serves bs cred t (.write path bytes offset fh now) ⟨bytes.length, .nothing⟩
        (Function.update t place (some (touched cred now o')))
  | unlink {path : List UInt8} {dir o : Object} (h : RemovesAt t cred path false dir o) :
      Serves bs cred t (.unlink path) ⟨0, .nothing⟩ (cut (placeOf path) t)
  | rmdir {path : List UInt8} {dir o : Object} (h : RemovesAt t cred path true dir o) :
      Serves bs cred t (.rmdir path) ⟨0, .nothing⟩ (cut (placeOf path) t)
  | renameSame {oldPath newPath : List UInt8} {dir dir' o : Object}
      (h : RenamesAt t cred oldPath newPath dir dir' o) (hsame : placeOf oldPath = placeOf newPath) :
      Serves bs cred t (.rename oldPath newPath 0) ⟨0, .nothing⟩ t
  | rename {oldPath newPath : List UInt8} {dir dir' o : Object}
      (h : RenamesAt t cred oldPath newPath dir dir' o)
      (hself : ¬(o.isDir = true ∧ o.ino = dir'.ino)) (hfree : t (placeOf newPath) = none) :
      Serves bs cred t (.rename oldPath newPath 0) ⟨0, .nothing⟩ (NameTree.move (placeOf oldPath) (placeOf newPath) t)
  | truncate {path : List UInt8} {size : Nat} {fi : Option Nat} {place : Names} {o : Object}
      (h : TargetAt t cred path fi place o) (hgrants : o.Grants cred nyfsAceWriteData)
      (hsize : size ≤ o.size) :
      Serves bs cred t (.truncate path size fi) ⟨0, .nothing⟩ (Function.update t place
        (some { o with size := size, content := o.content.take size }))
  | chmod {path : List UInt8} {mode : Nat} {o : Object} (h : ShowsAt t cred (cutComponents path) o)
      (howner : Owns cred o) :
      Serves bs cred t (.chmod path mode) ⟨0, .nothing⟩ (Function.update t (cutComponents path)
        (some (changed ⟨some (mode % 2 ^ 16), none, none, none⟩ o)))
  | chown {path : List UInt8} {uid gid : Nat} {o : Object}
      (h : ShowsAt t cred (cutComponents path) o) (howner : Owns cred o) :
      Serves bs cred t (.chown path uid gid) ⟨0, .nothing⟩ (Function.update t (cutComponents path)
        (some (changed ⟨none, some (uid, gid), none, none⟩ o)))
  | utimens {path : List UInt8} {atime mtime : Nat} {o : Object}
      (h : ShowsAt t cred (cutComponents path) o) (howner : Owns cred o) :
      Serves bs cred t (.utimens path atime mtime) ⟨0, .nothing⟩ (Function.update t (cutComponents path)
        (some (changed ⟨none, none, keepTime mtime, keepTime atime⟩ o)))

/-- The requests that take room for a name. -/
def FuseCall.TakesRoom : FuseCall → Prop
  | .mkdir .. => True
  | .create .. => True
  | .rename .. => True
  | _ => False

/-- What a request answers and what it does to the tree.  A request that is not granted fails and
leaves the tree.  One that is granted may find the volume full.  Then the tree stays as well, but for
a write to a file whose size is beyond its blocks, which may show more of them, and for a rename that
finds no room for the new name and none for the old one. -/
inductive TreeStep (bs : Nat) (cred : Cred) (t : FileTree) : FuseCall → Response → FileTree → Prop
  | served {q : FuseCall} {a : Response} {t' : FileTree} (h : Serves bs cred t q a t')
      (hreply : 0 ≤ a.number) : TreeStep bs cred t q a t'
  | refused {q : FuseCall} {a : Response} (hno : ∀ a t', ¬Serves bs cred t q a t')
      (hreply : a.number < 0) : TreeStep bs cred t q a t
  | full {q : FuseCall} {a : Response} {t' : FileTree} (h : Serves bs cred t q a t')
      (hroom : q.TakesRoom) : TreeStep bs cred t q ⟨-enospc, .nothing⟩ t
  | stopped {path bytes : List UInt8} {offset fh now : Nat} {place : Names} {o : Object}
      {c : List UInt8} (h : TargetAt t cred path (handleOf fh) place o)
      (hgrants : o.Grants cred nyfsAceWriteData) (hfront : o.content <+: c)
      (hwhole : o.content.length = o.size → c = o.content) :
      TreeStep bs cred t (.write path bytes offset fh now) ⟨-enospc, .nothing⟩
        (Function.update t place (some { o with content := c }))
  | lost {oldPath newPath : List UInt8} {t' : FileTree}
      (h : Serves bs cred t (.rename oldPath newPath 0) ⟨0, .nothing⟩ t') :
      TreeStep bs cred t (.rename oldPath newPath 0) ⟨-enospc, .nothing⟩ (cut (placeOf oldPath) t)

theorem nyfsStatusToErrno_neg (e : Nstatus) : nyfsStatusToErrno e < 0 := by
  cases e <;> decide

/-- The directory of a path is one object. -/
theorem ParentAt.unique {t : FileTree} {path : List UInt8} {dir dir' : Object}
    (h : ParentAt t cred path dir) (h' : ParentAt t cred path dir') : dir = dir' :=
  Option.some.inj (h.resolves.object.symm.trans h'.resolves.object)

theorem ParentAt.nameOk {t : FileTree} {path : List UInt8} {dir : Object}
    (h : ParentAt t cred path dir) : NameOk (nameOf path) :=
  ⟨List.length_pos_of_ne_nil h.accepted.nonempty, h.accepted.nameLength⟩

/-- What a making call comes to on the tree. -/
inductive MakeAnswer (cred : Cred) (t : FileTree) (isDir : Bool) (path : List UInt8) (mode : Nat) :
    Except Stop Nat → FileTree → Prop
  | made (ino : Nat) (dir : Object) (h : MakesAt t cred path dir)
      (hino : ∀ q a, t q = some a → a.ino ≠ ino) :
      MakeAnswer cred t isDir path mode (.ok ino)
        (Function.update t (placeOf path) (some (newObject ino isDir (mode % 2 ^ 16) cred)))
  | refused (e : Nstatus) (hno : ∀ dir, ¬MakesAt t cred path dir) :
      MakeAnswer cred t isDir path mode (.error (.status e)) t
  | full (e : Nstatus) (dir : Object) (h : MakesAt t cred path dir)
      (hfull : nyfsStatusToErrno e = -enospc) :
      MakeAnswer cred t isDir path mode (.error (.status e)) t

/-- The place of an object that a request names is one. -/
theorem TargetAt.unique {t : FileTree} {path : List UInt8} {fh : Option Nat} {place place' : Names}
    {o o' : Object} (honce : ∀ p q a b, t p = some a → t q = some b → a.ino = b.ino → p = q)
    (h : TargetAt t cred path fh place o) (h' : TargetAt t cred path fh place' o') :
    place = place' ∧ o = o' := by
  cases fh with
  | none =>
      obtain ⟨rfl, hres⟩ := h
      obtain ⟨rfl, hres'⟩ := h'
      exact ⟨rfl, Option.some.inj (hres.object.symm.trans hres'.object)⟩
  | some ino =>
      obtain ⟨ho, hino⟩ := h
      obtain ⟨ho', hino'⟩ := h'
      obtain rfl := honce place place' o o' ho ho' (hino.trans hino'.symm)
      exact ⟨rfl, Option.some.inj (ho.symm.trans ho')⟩

end Fuse
end Nyfs
end Nyxis
