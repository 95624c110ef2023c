import Nyxis.Nyfs.Extent

/-!
# NyFS access checks

{lit}`nyfs_check_access` decides every access, and {lit}`nyfs_inherit_acl` gives a new inode
the inheritable entries of its parent.
-/

namespace Nyxis
namespace Nyfs

open Bytes

variable {D : Type} [Device D]

/-- {lit}`nyfs_cred_t`. -/
structure Cred where
  uid : Nat
  gid : Nat
deriving DecidableEq

/-- {lit}`nyfs_ace_id_matches`. -/
def aceIdMatches (ace : Ace) (cred : Cred) : Bool :=
  if ace.id = nyfsIdEveryone then
    true
  else if ace.flags &&& nyfsAceFlagGroup ≠ 0 then
    ace.id = cred.gid
  else
    ace.id = cred.uid

/-- The entries of a byte string. -/
def decodeAces : (count : Nat) → List UInt8 → List Ace
  | 0, _ => []
  | count + 1, bytes => decodeAce bytes :: decodeAces count (bytes.drop 12)

/-- {lit}`nyfs_gather_aces`. -/
def gatherAces (x : Inode) (maxOut : Nat) : NyfsM D (List Ace) := do
  let n := min (min x.aceCount nyfsAclInlineCount) maxOut
  let inline := [x.ace0, x.ace1, x.ace2, x.ace3].take n
  if x.aclOverflowBlock ≠ nyfsBlknoNone ∧ 0 < x.aclOverflowCount ∧ n < maxOut then
    let extra := min x.aclOverflowCount (maxOut - n)
    let bs ← Eff.gets Volume.blockSize
    let bytes ← rawRead (x.aclOverflowBlock * bs) (extra * 12)
    pure (inline ++ decodeAces extra bytes)
  else
    pure inline

/-- The access bits that one triple of mode bits grants. -/
def modeAccess (mode r w x : Nat) : Nat :=
  (if mode &&& r ≠ 0 then nyfsAceReadData else 0) |||
    (if mode &&& w ≠ 0 then nyfsAceWriteData ||| nyfsAceAppendData else 0) |||
    (if mode &&& x ≠ 0 then nyfsAceExecute else 0)

/-- The access bits that the mode of an inode grants to a credential. -/
def unixAccess (x : Inode) (cred : Cred) : Nat :=
  if cred.uid = x.uid then
    modeAccess x.unixMode nyfsModeIrusr nyfsModeIwusr nyfsModeIxusr
  else if cred.gid = x.gid then
    modeAccess x.unixMode nyfsModeIrgrp nyfsModeIwgrp nyfsModeIxgrp
  else
    modeAccess x.unixMode nyfsModeIroth nyfsModeIwoth nyfsModeIxoth

/-- An entry that applies to the credential on the inode itself. -/
def aceApplies (type : Nat) (cred : Cred) (ace : Ace) : Bool :=
  ace.flags &&& nyfsAceFlagInheritOnly = 0 ∧ ace.type = type ∧ aceIdMatches ace cred

/-- The decision of an access control list. -/
def aclGrants (aces : List Ace) (cred : Cred) (requestedMask : Nat) : Bool :=
  let denied := aces.any (fun ace =>
    aceApplies nyfsAceTypeDeny cred ace && ace.accessMask &&& requestedMask != 0)
  let granted := (aces.filter (aceApplies nyfsAceTypeAllow cred)).foldl
    (fun mask ace => mask ||| ace.accessMask) 0
  !denied && requestedMask &&& granted == requestedMask

/-- {lit}`nyfs_check_access`. -/
def checkAccess (x : Inode) (cred : Cred) (requestedMask : Nat) : NyfsM D Unit := do
  if cred.uid = 0 then
    pure ()
  else if x.aceCount = 0 ∧ x.aclOverflowCount = 0 then
    if requestedMask &&& unixAccess x cred = requestedMask then
      pure ()
    else
      failWith .Npermission
  else
    let aces ← gatherAces x nyfsMaxTotalAces
    if aclGrants aces cred requestedMask then
      pure ()
    else
      failWith .Npermission

/-- The entry that a child inherits. -/
def inheritAce (ace : Ace) : Ace :=
  let flags := ace.flags &&& 0xF7
  if ace.flags &&& nyfsAceFlagNoPropagate ≠ 0 then
    { ace with flags := flags &&& 0xE9 }
  else
    { ace with flags := flags }

/-- The first four entries in the inline fields. -/
def Inode.withInlineAces (x : Inode) (aces : List Ace) : Inode :=
  { x with
    ace0 := aces.getD 0 x.ace0
    ace1 := aces.getD 1 x.ace1
    ace2 := aces.getD 2 x.ace2
    ace3 := aces.getD 3 x.ace3 }

/-- The end of {lit}`nyfs_inherit_acl`: the inode with a list that is not empty, in the inode
and, for what exceeds it, in a block of its own. -/
def storeAcl (child : Inode) (inherited : List Ace) : NyfsM D Inode :=
  if inherited.length ≤ nyfsAclInlineCount then
    pure { child.withInlineAces inherited with
      aceCount := inherited.length
      aclOverflowBlock := nyfsBlknoNone
      aclOverflowCount := 0 }
  else do
    let overflowCount := inherited.length - nyfsAclInlineCount
    let bs ← Eff.gets Volume.blockSize
    if bs < overflowCount * 12 then
      failWith .Noverflow
    else
      let overflowBlock ← allocBlock
      match ← attemptStatus (rawWrite (overflowBlock * bs)
          ((inherited.drop nyfsAclInlineCount).flatMap encodeAce)) with
      | .error e =>
          ignoreStatus (freeBlock overflowBlock)
          failWith e
      | .ok () =>
          pure { child.withInlineAces inherited with
            aceCount := nyfsAclInlineCount
            aclOverflowBlock := overflowBlock
            aclOverflowCount := overflowCount }

/-- {lit}`nyfs_inherit_acl`: the child with the entries it inherits. -/
def inheritAcl (parent child : Inode) (childIsDir : Bool) : NyfsM D Inode := do
  let needFlag := if childIsDir then nyfsAceFlagInheritDir else nyfsAceFlagInheritFile
  let parentAces ← gatherAces parent nyfsMaxTotalAces
  let inherited := ((parentAces.filter (fun ace => ace.flags &&& needFlag ≠ 0)).map
    inheritAce).take nyfsMaxTotalAces
  if inherited.length = 0 then
    pure child
  else
    storeAcl child inherited

end Nyfs
end Nyxis
