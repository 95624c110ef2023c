import Nyxis.Status
import Mathlib.Data.UInt
import Mathlib.Data.List.Basic
import Mathlib.Data.List.DropRight

/-!
# Path strings

The path parsers of {lit}`drivers/filesystem/vfs.c`.  A C string is the list of its
bytes before the terminating zero, and a cursor into a path is the part of the
path it points to.

Main results:

- Definitions {lit}`parseNamespacePath` and {lit}`parseSegment`.
- Theorem {lit}`parseSegment_lt`: a segment that is taken shortens the path, so the
  resolvers reach its end.
-/

namespace Nyxis
namespace Vfs

/-- File names and paths. -/
abbrev Name := List UInt8

/-- {lit}`VFS_NAME_MAX`. -/
def vfsNameMax : Nat := 255

/-- The characters that the parsers look for. -/
def slash : UInt8 := 47
def colon : UInt8 := 58

/-- The C string at the start of a buffer. -/
def cString (bytes : List UInt8) : Name :=
  bytes.takeWhile (fun b => b ≠ 0)

/-- What {lit}`parse_namespace_path` leaves in the name buffer when it ends without
writing a terminator: the bytes copied so far, then whatever the buffer held. -/
def unterminated (buffer copied : List UInt8) : Name :=
  if copied = [] then [] else copied ++ cString (buffer.drop copied.length)

/-- The loop of {lit}`parse_namespace_path`. -/
def namespaceLoop (buffer path : List UInt8) :
    (fuel : Nat) → (cursor copied : List UInt8) → Except Nstatus (Name × List UInt8)
  | 0, _, copied => .ok (unterminated buffer copied, path)
  | fuel + 1, cursor, copied =>
      if colon ∉ cursor then
        .ok (unterminated buffer copied, path)
      else
        let segment := cursor.takeWhile (fun b => b ≠ colon)
        let rest := (cursor.dropWhile (fun b => b ≠ colon)).tail
        let copied' := if copied = [] then copied else copied ++ [colon]
        if copied.length + segment.length ≥ vfsNameMax + 1 then .error .NpathTooLong
        else if copied'.length ≥ vfsNameMax + 1 then .error .NpathTooLong
        else if copied'.length + segment.length ≥ vfsNameMax + 1 then .error .NpathTooLong
        else if rest.head? = some slash then .ok (copied' ++ segment, rest)
        else namespaceLoop buffer path fuel rest (copied' ++ segment)

/-- {lit}`parse_namespace_path`: the namespace name and the local path.  The name is
built in a buffer of the caller that is not initialised. -/
def parseNamespacePath (buffer path : List UInt8) : Except Nstatus (Name × List UInt8) :=
  if path.head? = some slash then .ok ([], path)
  else namespaceLoop buffer path path.length path []

/-- Skip slashes. -/
def skipSlashes (cursor : List UInt8) : List UInt8 :=
  cursor.dropWhile (fun b => b = slash)

/-- {lit}`parse_segment`: the next component and the cursor behind it. -/
def parseSegment (cursor : List UInt8) : Except Nstatus (Name × List UInt8) :=
  let source := skipSlashes cursor
  if source = [] then .ok ([], source)
  else
    let name := source.takeWhile (fun b => b ≠ slash)
    if name.length ≥ vfsNameMax + 1 then .error .NpathTooLong
    else .ok (name, skipSlashes (source.dropWhile (fun b => b ≠ slash)))

theorem length_skipSlashes_le (cursor : List UInt8) :
    (skipSlashes cursor).length ≤ cursor.length :=
  (List.dropWhile_suffix _).length_le

/-- Behind the slashes there is nothing more to skip. -/
theorem skipSlashes_idem (cursor : List UInt8) :
    skipSlashes (skipSlashes cursor) = skipSlashes cursor :=
  List.dropWhile_idempotent _ _

/-- A component that is taken shortens the path. -/
theorem parseSegment_lt {cursor rest : List UInt8} {name : Name}
    (h : parseSegment cursor = .ok (name, rest)) (hname : name ≠ []) :
    rest.length < cursor.length := by
  rw [parseSegment] at h
  split at h
  next =>
    cases h
    exact absurd rfl hname
  next hne =>
    dsimp only at h
    split at h
    next => cases h
    next =>
      cases h
      have hsplit := List.takeWhile_append_dropWhile
        (p := fun b => decide (b ≠ slash)) (l := skipSlashes cursor)
      have hlen := congrArg List.length hsplit
      rw [List.length_append] at hlen
      have hpos : 0 < ((skipSlashes cursor).takeWhile (fun b => decide (b ≠ slash))).length :=
        List.length_pos_of_ne_nil hname
      have h1 := length_skipSlashes_le ((skipSlashes cursor).dropWhile (fun b => b ≠ slash))
      have h2 := length_skipSlashes_le cursor
      omega

end Vfs
end Nyxis
