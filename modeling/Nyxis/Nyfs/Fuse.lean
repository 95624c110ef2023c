import Nyxis.Nyfs.Agreement
import Nyxis.Nyfs.HostPath

/-!
# The FUSE driver of the host

{lit}`nyfs_fuse.c` gives the volume to the kernel of the host.  Each callback takes the identity of
the caller from the context of the request, looks a path up, calls the host library and returns a
number: at least zero, or an error number of the host with a minus sign.

A pointer {lit}`fi` to the state of an open file is the inode number in {lit}`fi->fh`.
{lit}`op_release` does nothing and {lit}`op_statfs` copies counters of the superblock; both are left
out.

Main results:

- Definitions {lit}`opGetattr`, {lit}`opReaddir`, {lit}`opMkdir`, {lit}`opCreate`, {lit}`opOpen`,
  {lit}`opRead`, {lit}`opWrite`, {lit}`opUnlink`, {lit}`opRmdir`, {lit}`opRename`,
  {lit}`opTruncate`, {lit}`opChmod`, {lit}`opChown` and {lit}`opUtimens`.
- Definition {lit}`FuseCall.exec`: one request.
-/

namespace Nyxis
namespace Nyfs
namespace Fuse

open Vfs (slash)

variable {D : Type} [ReliableDevice D]

/-! ## Error numbers -/

def enoent : Int := 2
def eio : Int := 5
def eacces : Int := 13
def eexist : Int := 17
def einval : Int := 22
def enospc : Int := 28
def erofs : Int := 30
def enametoolong : Int := 36
def enotempty : Int := 39
def enotsup : Int := 95

/-- {lit}`nyfs_status_to_errno`. -/
def nyfsStatusToErrno : Nstatus → Int
  | .NnotFound => -enoent
  | .NinvalidArg => -einval
  | .NoutOfMemory => -enospc
  | .Npermission => -eacces
  | .Nbusy => -enotempty
  | .NalreadyExists => -eexist
  | .Nio => -eio
  | .Nunsupported => -enotsup
  | .Ncorrupted => -eio
  | .NreadOnly => -erofs
  | .NdiskFull => -enospc
  | .NbadFilesystem => -eio
  | .NnameTooLong => -enametoolong
  | .Noverflow => -enospc
  | _ => -eio

/-- A callback: an error status becomes an error number. -/
def reply (m : NyfsM D Int) : NyfsM D Int := do
  match ← attemptStatus m with
  | .ok n => pure n
  | .error e => pure (nyfsStatusToErrno e)

/-- A callback that gives a value back besides its number. -/
def replyWith {α : Type} (m : NyfsM D α) : NyfsM D (Int × Option α) := do
  match ← attemptStatus m with
  | .ok a => pure (0, some a)
  | .error e => pure (nyfsStatusToErrno e, none)

/-- The conversion of a byte count to {lit}`int`. -/
def toInt32 (n : Nat) : Int :=
  (BitVec.ofNat 32 n).toInt

/-- {lit}`NYFS_TIME_KEEP`. -/
def nyfsTimeKeep : Nat := 2 ^ 64 - 1

/-- The time argument of {lit}`nyfs_op_setattr`. -/
def keepTime (t : Nat) : Option Nat :=
  if t = nyfsTimeKeep then none else some t

/-! ## Attributes -/

def sIfdir : Nat := 0o040000
def sIfreg : Nat := 0o100000

/-- {lit}`struct stat`, as far as it is filled. -/
structure Stat where
  ino : Nat
  mode : Nat
  nlink : Nat
  uid : Nat
  gid : Nat
  size : Nat
  blksize : Nat
  blocks : Nat
  mtime : Nat × Nat
  atime : Nat × Nat
  ctime : Nat × Nat
deriving DecidableEq

/-- Seconds and nanoseconds. -/
def timespec (ns : Nat) : Nat × Nat :=
  (ns / 1000000000, ns % 1000000000)

/-- {lit}`nyfs_fill_stat`.  The library makes no symbolic links and no devices. -/
def nyfsFillStat (blockSize ino : Nat) (x : Inode) : Stat where
  ino := ino
  mode := (if x.type = nyfsInoTypeDir then sIfdir else sIfreg) ||| (x.unixMode &&& 0o7777)
  nlink := if x.linkCount ≠ 0 then x.linkCount else 1
  uid := x.uid
  gid := x.gid
  size := x.size
  blksize := blockSize
  blocks := (x.size + 511) % 2 ^ 64 / 512
  mtime := timespec x.mtime
  atime := timespec x.atime
  ctime := timespec x.ctime

/-! ## Callbacks -/

/-- {lit}`nyfs_resolve`. -/
def nyfsResolve (path : List UInt8) (cred : Cred) : NyfsM D Nat :=
  if path = [slash] then pure nyfsRootIno else pathLookup path cred

/-- The inode of an open file, or of the path when there is none. -/
def target (path : List UInt8) (cred : Cred) (fh : Nat) : NyfsM D Nat :=
  if fh = nyfsInoNone then nyfsResolve path cred else pure fh

/-- The parent directory and the name for a buffer {lit}`name`. -/
def parentOf (path : List UInt8) (cred : Cred) : NyfsM D (Nat × List UInt8) :=
  pathLookupParent path cred (nyfsNameMax + 1)

/-- {lit}`op_getattr`. -/
def opGetattr (path : List UInt8) (cred : Cred) : NyfsM D (Int × Option Stat) :=
  replyWith do
    let ino ← nyfsResolve path cred
    let x ← readInode ino
    let bs ← Eff.gets Volume.blockSize
    pure (nyfsFillStat bs ino x)

/-- An entry that {lit}`op_readdir` hands to {lit}`filler`, and the offset behind it. -/
structure DirEntry where
  name : List UInt8
  ino : Nat
  mode : Nat
  off : Nat
deriving DecidableEq

/-- The entry of one slot of {lit}`op_readdir`. -/
def slotEntry (dirIno : Nat) (cred : Cred) (slot : Nat) : NyfsM D DirEntry :=
  if slot = 0 then
    pure ⟨[46], dirIno, sIfdir, slot + 1⟩
  else if slot = 1 then
    pure ⟨[46, 46], dirIno, sIfdir, slot + 1⟩
  else do
    let view ← opReaddirAt dirIno cred (slot - 2)
    pure ⟨view.name, view.ino, if view.type = nyfsDirentTypeDir then sIfdir else sIfreg, slot + 1⟩

/-- The loop of {lit}`op_readdir`, for a {lit}`filler` that takes {lit}`room` entries and is full at
the next one. -/
def readdirLoop (dirIno : Nat) (cred : Cred) : (room slot : Nat) → NyfsM D (List DirEntry)
  | room, slot => do
      match ← attemptStatus (slotEntry dirIno cred slot) with
      | .error .NnotFound => pure []
      | .error e => failWith e
      | .ok entry =>
          match room with
          | 0 => pure []
          | room + 1 => do
              let rest ← readdirLoop dirIno cred room (slot + 1)
              pure (entry :: rest)

/-- {lit}`op_readdir`: the entries that {lit}`filler` has taken. -/
def opReaddir (path : List UInt8) (offset room : Nat) (cred : Cred) :
    NyfsM D (Int × Option (List DirEntry)) :=
  replyWith do
    let dirIno ← nyfsResolve path cred
    readdirLoop dirIno cred room offset

/-- The common part of {lit}`op_mkdir` and {lit}`op_create`. -/
def makeAt (isDir : Bool) (path : List UInt8) (mode : Nat) (cred : Cred) : NyfsM D Nat := do
  let (parentIno, name) ← parentOf path cred
  makeNode isDir parentIno name (mode % 2 ^ 16) cred

/-- {lit}`op_mkdir`. -/
def opMkdir (path : List UInt8) (mode : Nat) (cred : Cred) : NyfsM D Int :=
  reply do
    let _ ← makeAt true path mode cred
    pure 0

/-- {lit}`op_create`: the inode of the open file goes to {lit}`fi->fh`. -/
def opCreate (path : List UInt8) (mode : Nat) (cred : Cred) : NyfsM D (Int × Option Nat) :=
  replyWith (makeAt false path mode cred)

/-- {lit}`op_open`: the inode goes to {lit}`fi->fh`. -/
def opOpen (path : List UInt8) (cred : Cred) : NyfsM D (Int × Option Nat) :=
  replyWith (nyfsResolve path cred)

/-- {lit}`op_read`: the number of bytes, and the bytes. -/
def opRead (path : List UInt8) (size offset fh : Nat) (cred : Cred) :
    NyfsM D (Int × List UInt8) := do
  match ← attemptStatus (target path cred fh) with
  | .error e => pure (nyfsStatusToErrno e, [])
  | .ok ino =>
      match ← attemptStatus (Nyfs.opRead ino cred offset size) with
      | .error e => pure (nyfsStatusToErrno e, [])
      | .ok bytes => pure (toInt32 bytes.length, bytes)

/-- {lit}`op_write`, at the time {lit}`now`. -/
def opWrite (path : List UInt8) (bytes : List UInt8) (offset fh now : Nat) (cred : Cred) :
    NyfsM D Int :=
  reply do
    let ino ← target path cred fh
    let written ← Nyfs.opWrite ino cred offset bytes
    ignoreStatus (opSetattr ino cred ⟨none, none, keepTime now, none⟩)
    pure (toInt32 written)

/-- {lit}`op_unlink`. -/
def opUnlink (path : List UInt8) (cred : Cred) : NyfsM D Int :=
  reply do
    let (parentIno, name) ← parentOf path cred
    opRemove parentIno name cred false
    pure 0

/-- {lit}`op_rmdir`. -/
def opRmdir (path : List UInt8) (cred : Cred) : NyfsM D Int :=
  reply do
    let (parentIno, name) ← parentOf path cred
    opRemove parentIno name cred true
    pure 0

/-- {lit}`op_rename`. -/
def opRename (oldPath newPath : List UInt8) (flags : Nat) (cred : Cred) : NyfsM D Int :=
  if flags ≠ 0 then
    pure (-enotsup)
  else
    reply do
      let (oldParentIno, oldName) ← parentOf oldPath cred
      let (newParentIno, newName) ← parentOf newPath cred
      Nyfs.opRename oldParentIno oldName newParentIno newName cred
      pure 0

/-- {lit}`op_truncate`. -/
def opTruncate (path : List UInt8) (size : Nat) (fi : Option Nat) (cred : Cred) : NyfsM D Int :=
  reply do
    let ino ← (match fi with
      | some fh => pure fh
      | none => nyfsResolve path cred)
    Nyfs.opTruncate ino cred size
    pure 0

/-- The common part of {lit}`op_chmod`, {lit}`op_chown` and {lit}`op_utimens`. -/
def setAttributes (path : List UInt8) (change : AttrChange) (cred : Cred) : NyfsM D Int :=
  reply do
    let ino ← nyfsResolve path cred
    opSetattr ino cred change
    pure 0

/-- {lit}`op_chmod`. -/
def opChmod (path : List UInt8) (mode : Nat) (cred : Cred) : NyfsM D Int :=
  setAttributes path ⟨some (mode % 2 ^ 16), none, none, none⟩ cred

/-- {lit}`op_chown`. -/
def opChown (path : List UInt8) (uid gid : Nat) (cred : Cred) : NyfsM D Int :=
  setAttributes path ⟨none, some (uid, gid), none, none⟩ cred

/-- {lit}`op_utimens`, with both times in nanoseconds. -/
def opUtimens (path : List UInt8) (atime mtime : Nat) (cred : Cred) : NyfsM D Int :=
  setAttributes path ⟨none, none, keepTime mtime, keepTime atime⟩ cred

/-! ## Requests -/

/-- The requests, with the arguments that the callbacks read. -/
inductive FuseCall
  | getattr (path : List UInt8)
  | readdir (path : List UInt8) (offset room : Nat)
  | mkdir (path : List UInt8) (mode : Nat)
  | create (path : List UInt8) (mode : Nat)
  | openFile (path : List UInt8)
  | read (path : List UInt8) (size offset fh : Nat)
  | write (path bytes : List UInt8) (offset fh now : Nat)
  | unlink (path : List UInt8)
  | rmdir (path : List UInt8)
  | rename (oldPath newPath : List UInt8) (flags : Nat)
  | truncate (path : List UInt8) (size : Nat) (fi : Option Nat)
  | chmod (path : List UInt8) (mode : Nat)
  | chown (path : List UInt8) (uid gid : Nat)
  | utimens (path : List UInt8) (atime mtime : Nat)

/-- What a callback gives back besides its number. -/
inductive Payload
  | nothing
  | attributes (st : Stat)
  | entries (entries : List DirEntry)
  | handle (fh : Nat)
  | bytes (bytes : List UInt8)

/-- What a request is answered with. -/
structure Response where
  number : Int
  payload : Payload

/-- A callback that returns a number only. -/
def numbered (m : NyfsM D Int) : NyfsM D Response := do
  let n ← m
  pure ⟨n, .nothing⟩

/-- A callback that gives a value back when it succeeds. -/
def valued {α : Type} (wrap : α → Payload) (m : NyfsM D (Int × Option α)) : NyfsM D Response := do
  let (n, value) ← m
  pure ⟨n, (value.map wrap).getD .nothing⟩

/-- One request. -/
def FuseCall.exec (cred : Cred) : FuseCall → NyfsM D Response
  | .getattr path => valued .attributes (opGetattr path cred)
  | .readdir path offset room => valued .entries (opReaddir path offset room cred)
  | .mkdir path mode => numbered (opMkdir path mode cred)
  | .create path mode => valued .handle (opCreate path mode cred)
  | .openFile path => valued .handle (opOpen path cred)
  | .read path size offset fh => do
      let (n, bytes) ← opRead path size offset fh cred
      pure ⟨n, .bytes bytes⟩
  | .write path bytes offset fh now => numbered (opWrite path bytes offset fh now cred)
  | .unlink path => numbered (opUnlink path cred)
  | .rmdir path => numbered (opRmdir path cred)
  | .rename oldPath newPath flags => numbered (opRename oldPath newPath flags cred)
  | .truncate path size fi => numbered (opTruncate path size fi cred)
  | .chmod path mode => numbered (opChmod path mode cred)
  | .chown path uid gid => numbered (opChown path uid gid cred)
  | .utimens path atime mtime => numbered (opUtimens path atime mtime cred)

/-- The inode numbers of open files in a request. -/
def FuseCall.handles : FuseCall → List Nat
  | .read _ _ _ fh => if fh = nyfsInoNone then [] else [fh]
  | .write _ _ _ fh _ => if fh = nyfsInoNone then [] else [fh]
  | .truncate _ _ fi => fi.toList
  | _ => []

/-- The arguments are in the range of their C types; the kernel of the host passes offsets that
are not negative and buffers shorter than 2 GiB. -/
def FuseCall.Fits : FuseCall → Prop
  | .read _ size _ _ => size < 2 ^ 31
  | .write _ bytes offset _ now => bytes.length < 2 ^ 31 ∧ offset < 2 ^ 63 ∧ now < 2 ^ 64
  | .chown _ uid gid => uid < 2 ^ 32 ∧ gid < 2 ^ 32
  | .utimens _ atime mtime => atime < 2 ^ 64 ∧ mtime < 2 ^ 64
  | _ => True

end Fuse
end Nyfs
end Nyxis
