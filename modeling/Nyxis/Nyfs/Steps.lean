import Nyxis.Nyfs.Inventory

/-!
# Steps on an inventory

The operations keep an inode in memory while they change its directory and write it at the
end.  {lit}`View.withInodes` puts the pending inodes into the view, so that the inventory
holds between the steps as well.

Main results:

- Theorem {lit}`Inventory.insertName`: a name goes into a directory.
- Theorem {lit}`Inventory.removeName`: a name leaves a directory.
- Theorem {lit}`Inventory.dropLink`: an inode without a name goes with its blocks.
-/

namespace Nyxis
namespace Nyfs

open Bytes

variable {D : Type} [ReliableDevice D] {L : Layout} {V V' : View} {nodes nodes' : Nat → Node}
variable {i : Nat} {x : Inode} {n : Node}

/-! ## Reading -/

/-- A view with other inode records. -/
def View.withInodes (V : View) (f : Nat → Inode) : View :=
  { V with inode := f }

theorem View.withInodes_self (V : View) : V.withInodes V.inode = V :=
  rfl

theorem Inode.Sealed.sealInode_eq (h : x.Sealed i) : sealInode i x = x := by
  have hino := h.ino
  have hsum := h.checksum
  subst hino
  unfold sealInode
  have heq : ({ x with ino := x.ino } : Inode) = x := rfl
  rw [heq, hsum]

theorem Owned.does_readInode (hL : L.Valid) (h : Owned L V nodes) (hi : Live L V i) :
    Does L V (readInode i : NyfsM D _) (.ok (V.inode i)) V :=
  Nyfs.does_readInode hL hi.ne_zero hi.lt (h.sealed i hi)

/-- The outcome of reading a directory inode. -/
theorem Owned.does_readDirInode (hL : L.Valid) (h : Owned L V nodes) (hi : Live L V i) :
    Does L V (readDirInode i : NyfsM D _)
      (if (V.inode i).type ≠ nyfsInoTypeDir then .error (.status .Nunsupported)
        else .ok (V.inode i)) V := by
  refine (h.does_readInode hL hi).bind ?_
  split
  next => exact Does.fail _
  next => exact Does.pure _

/-- The stored access control list of an inode, as far as it is read. -/
def Inode.aces (V : View) (x : Inode) : List Ace :=
  let n := min (min x.aceCount nyfsAclInlineCount) nyfsMaxTotalAces
  let inline := [x.ace0, x.ace1, x.ace2, x.ace3].take n
  if x.aclOverflowBlock ≠ nyfsBlknoNone ∧ 0 < x.aclOverflowCount ∧ n < nyfsMaxTotalAces then
    let extra := min x.aclOverflowCount (nyfsMaxTotalAces - n)
    inline ++ decodeAces extra (bytesAt (V.block x.aclOverflowBlock) 0 (extra * 12))
  else
    inline

theorem AclAt.does_gatherAces (hL : L.Valid) {acl : List Nat} (h : AclAt L x acl) :
    Does L V (gatherAces x nyfsMaxTotalAces : NyfsM D _) (.ok (x.aces V)) V := by
  unfold gatherAces Inode.aces
  dsimp only
  by_cases hcond : x.aclOverflowBlock ≠ nyfsBlknoNone ∧ 0 < x.aclOverflowCount ∧
      min (min x.aceCount nyfsAclInlineCount) nyfsMaxTotalAces < nyfsMaxTotalAces
  · rw [if_pos hcond, if_pos hcond]
    have hdata : L.IsData x.aclOverflowBlock := by
      rcases h.block with ⟨hnone, -⟩ | ⟨hdata, -⟩
      · exact absurd hnone hcond.1
      · exact hdata
    have hfits := h.fits
    have hs := hL.blockSize_ge
    generalize hextra : min x.aclOverflowCount _ = extra
    have hle : extra * 12 ≤ L.blockSize := by
      refine le_trans (Nat.mul_le_mul_right _ ?_) hfits
      rw [← hextra]
      exact Nat.min_le_left _ _
    have hread := does_readBlock (D := D) (V := V) (o := 0) (n := extra * 12) hL hdata (by omega)
      (by omega)
    rw [Nat.add_zero] at hread
    exact Does.blockSize_bind (hread.bind (Does.pure _))
  · rw [if_neg hcond, if_neg hcond]
    exact Does.pure _

theorem Node.Holds.does_gatherAces (hL : L.Valid) (h : n.Holds L V x) :
    Does L V (gatherAces x nyfsMaxTotalAces : NyfsM D _) (.ok (x.aces V)) V :=
  h.acl.does_gatherAces hL

/-- Whether an inode grants an access. -/
def Grants (V : View) (x : Inode) (cred : Cred) (mask : Nat) : Prop :=
  cred.uid = 0 ∨
    if x.aceCount = 0 ∧ x.aclOverflowCount = 0 then mask &&& unixAccess x cred = mask
    else aclGrants (x.aces V) cred mask = true

instance (V : View) (x : Inode) (cred : Cred) (mask : Nat) :
    Decidable (Grants V x cred mask) :=
  inferInstanceAs (Decidable (_ ∨ ite _ _ _))

/-- The access check grants or refuses. -/
theorem Node.Holds.does_checkAccess (hL : L.Valid) (h : n.Holds L V x) (cred : Cred) (mask : Nat) :
    Does L V (checkAccess x cred mask : NyfsM D _)
      (if Grants V x cred mask then .ok () else .error (.status .Npermission)) V := by
  unfold checkAccess
  by_cases hroot : cred.uid = 0
  · have hgrants : Grants V x cred mask := Or.inl hroot
    rw [if_pos hroot, if_pos hgrants]
    exact Does.pure ()
  · rw [if_neg hroot]
    by_cases hacl : x.aceCount = 0 ∧ x.aclOverflowCount = 0
    · have hiff : Grants V x cred mask ↔ mask &&& unixAccess x cred = mask := by
        rw [Grants, if_pos hacl]
        exact or_iff_right hroot
      rw [if_pos hacl]
      by_cases hmask : mask &&& unixAccess x cred = mask
      · rw [if_pos hmask, if_pos (hiff.mpr hmask)]
        exact Does.pure ()
      · rw [if_neg hmask, if_neg (mt hiff.mp hmask)]
        exact Does.fail _
    · have hiff : Grants V x cred mask ↔ aclGrants (x.aces V) cred mask = true := by
        rw [Grants, if_neg hacl]
        exact or_iff_right hroot
      rw [if_neg hacl]
      refine (h.does_gatherAces hL).bind ?_
      by_cases hgrant : aclGrants (x.aces V) cred mask = true
      · rw [if_pos hgrant, if_pos (hiff.mpr hgrant)]
        exact Does.pure ()
      · rw [if_neg hgrant, if_neg (mt hiff.mp hgrant)]
        exact Does.fail _

/-! ## Inheriting -/

/-- The fields of an entry fit their widths. -/
def Ace.Fits (ace : Ace) : Prop :=
  ∀ f ∈ ace.fields, f.2 < 256 ^ f.1

theorem Ace.fits_iff (ace : Ace) :
    ace.Fits ↔ ace.id < 2 ^ 32 ∧ ace.accessMask < 2 ^ 32 ∧ ace.type < 2 ^ 8 ∧ ace.flags < 2 ^ 8 ∧
      ace.reserved < 2 ^ 16 := by
  unfold Ace.Fits Ace.fields
  simp only [List.forall_mem_cons, List.not_mem_nil, false_imp_iff, implies_true, and_true]
  rfl

theorem leNat_take_lt (bytes : List UInt8) (n : Nat) : leNat (bytes.take n) < 256 ^ n :=
  lt_of_lt_of_le (leNat_lt _)
    (Nat.pow_le_pow_right (by decide) (by rw [List.length_take]; exact Nat.min_le_left _ _))

theorem decodeAce_fits (bytes : List UInt8) : (decodeAce bytes).Fits := by
  rw [Ace.fits_iff]
  exact ⟨leNat_take_lt _ 4, leNat_take_lt _ 4, leNat_take_lt _ 1, leNat_take_lt _ 1,
    leNat_take_lt _ 2⟩

theorem inheritAce_fits {ace : Ace} (h : ace.Fits) : (inheritAce ace).Fits := by
  rw [Ace.fits_iff] at h ⊢
  obtain ⟨hid, hmask, htype, hflags, hreserved⟩ := h
  have hle : ace.flags &&& 0xF7 ≤ ace.flags := Nat.and_le_left
  have hle' : (ace.flags &&& 0xF7) &&& 0xE9 ≤ ace.flags &&& 0xF7 := Nat.and_le_left
  unfold inheritAce
  dsimp only
  split
  next => exact ⟨hid, hmask, htype, lt_of_le_of_lt (hle'.trans hle) hflags, hreserved⟩
  next => exact ⟨hid, hmask, htype, lt_of_le_of_lt hle hflags, hreserved⟩

theorem decodeAces_fits (count : Nat) (bytes : List UInt8) :
    ∀ ace ∈ decodeAces count bytes, ace.Fits := by
  induction count generalizing bytes with
  | zero =>
      intro ace hace
      cases hace
  | succ count ih =>
      intro ace hace
      rcases List.mem_cons.mp hace with rfl | hace
      · exact decodeAce_fits bytes
      · exact ih _ ace hace

/-- The entries that a child of an inode inherits. -/
def inheritedAces (V : View) (x : Inode) (isDir : Bool) : List Ace :=
  (((x.aces V).filter (fun ace =>
    ace.flags &&& (if isDir then nyfsAceFlagInheritDir else nyfsAceFlagInheritFile) ≠ 0)).map
      inheritAce).take nyfsMaxTotalAces

theorem inline_fits (hx : x.Fits) : ∀ ace ∈ [x.ace0, x.ace1, x.ace2, x.ace3], ace.Fits := by
  obtain ⟨-, h0, h1, h2, h3, -⟩ := hx.parts
  intro ace hace
  simp only [List.mem_cons, List.not_mem_nil, or_false] at hace
  rcases hace with rfl | rfl | rfl | rfl
  · exact h0
  · exact h1
  · exact h2
  · exact h3

theorem Inode.aces_fits (hx : x.Fits) : ∀ ace ∈ x.aces V, ace.Fits := by
  intro ace hace
  unfold Inode.aces at hace
  dsimp only at hace
  split at hace
  next =>
    rcases List.mem_append.mp hace with hace | hace
    · exact inline_fits hx ace (List.mem_of_mem_take hace)
    · exact decodeAces_fits _ _ ace hace
  next => exact inline_fits hx ace (List.mem_of_mem_take hace)

theorem inheritedAces_fits (hx : x.Fits) (isDir : Bool) :
    ∀ ace ∈ inheritedAces V x isDir, ace.Fits := by
  intro ace hace
  obtain ⟨parent, hparent, rfl⟩ := List.mem_map.mp (List.mem_of_mem_take hace)
  exact inheritAce_fits (Inode.aces_fits hx parent (List.mem_of_mem_filter hparent))

theorem length_inheritedAces_le (x : Inode) (isDir : Bool) :
    (inheritedAces V x isDir).length ≤ nyfsMaxTotalAces := by
  rw [inheritedAces, List.length_take]
  exact Nat.min_le_left _ _

/-- An inode without its access control list. -/
def Inode.bare (x : Inode) : Inode :=
  { x with
    aceCount := 0, ace0 := Ace.zero, ace1 := Ace.zero, ace2 := Ace.zero, ace3 := Ace.zero
    aclOverflowBlock := 0, aclOverflowCount := 0 }

/-- An inode with another access control list fits. -/
theorem Inode.Fits.setAces (hx : x.Fits) {aces : List Ace} (haces : ∀ ace ∈ aces, ace.Fits)
    {count block overflow : Nat} (hcount : count < 2 ^ 16) (hblock : block < 2 ^ 64)
    (hoverflow : overflow < 2 ^ 32) :
    ({ x.withInlineAces aces with
      aceCount := count, aclOverflowBlock := block, aclOverflowCount := overflow } : Inode).Fits := by
  have hget : ∀ (k : Nat) (old : Ace), old.Fits → (aces.getD k old).Fits := by
    intro k old hold
    rw [List.getD_eq_getElem?_getD]
    cases hcase : aces[k]? with
    | none => exact hold
    | some ace => exact haces ace (List.mem_of_getElem? hcase)
  have hinline := inline_fits hx
  have h0 := hget 0 _ (hinline x.ace0 (by simp))
  have h1 := hget 1 _ (hinline x.ace1 (by simp))
  have h2 := hget 2 _ (hinline x.ace2 (by simp))
  have h3 := hget 3 _ (hinline x.ace3 (by simp))
  rw [Inode.fits_iff] at hx ⊢
  obtain ⟨⟨g1, g2, g3, g4, g5, g6, -, g8⟩, -, -, -, hrest⟩ := hx
  refine ⟨⟨g1, g2, g3, g4, g5, g6, hcount, g8⟩, ?_, hblock, hoverflow, hrest⟩
  simp only [List.forall_mem_append]
  exact ⟨⟨⟨h0, h1⟩, h2⟩, h3⟩

theorem length_flatMap_encodeAce (aces : List Ace) :
    (aces.flatMap encodeAce).length = aces.length * 12 := by
  induction aces with
  | nil => rfl
  | cons ace aces ih =>
      rw [List.flatMap_cons, List.length_append, length_encodeAce, ih, List.length_cons]
      omega

theorem decodeAces_flatMap {aces : List Ace} (h : ∀ ace ∈ aces, ace.Fits) :
    decodeAces aces.length (aces.flatMap encodeAce) = aces := by
  induction aces with
  | nil => rfl
  | cons ace aces ih =>
      rw [List.length_cons, decodeAces, List.flatMap_cons, decodeAce_encode_append (h ace (by simp)),
        drop_encodeAce _ 0, List.drop_zero, ih (fun a ha => h a (List.mem_cons_of_mem _ ha))]

/-- The inline fields hold the front of the list. -/
theorem take_withInlineAces (x : Inode) (aces : List Ace) :
    [(x.withInlineAces aces).ace0, (x.withInlineAces aces).ace1, (x.withInlineAces aces).ace2,
      (x.withInlineAces aces).ace3].take (min aces.length nyfsAclInlineCount) =
      aces.take nyfsAclInlineCount := by
  match aces with
  | [] => rfl
  | [_] => rfl
  | [_, _] => rfl
  | [_, _, _] => rfl
  | a :: b :: c :: d :: rest =>
      have hmin : min (a :: b :: c :: d :: rest).length nyfsAclInlineCount = 4 := by
        rw [nyfsAclInlineCount]
        simp
      rw [hmin]
      rfl

/-- A list that fits the inode is read back. -/
theorem aces_of_inline {aces : List Ace} (h : aces.length ≤ nyfsAclInlineCount) :
    ({ x.withInlineAces aces with
      aceCount := aces.length
      aclOverflowBlock := nyfsBlknoNone
      aclOverflowCount := 0 } : Inode).aces V = aces := by
  have hmax : nyfsAclInlineCount ≤ nyfsMaxTotalAces := by
    decide
  have htake := take_withInlineAces x aces
  rw [List.take_of_length_le h] at htake
  unfold Inode.aces
  dsimp only
  rw [if_neg (fun hcond => hcond.1 rfl),
    Nat.min_eq_left ((Nat.min_le_right _ _).trans hmax)]
  exact htake

/-- A list that exceeds the inode is read back from the inode and its block. -/
theorem aces_of_overflow {aces : List Ace} (hfits : ∀ ace ∈ aces, ace.Fits)
    (hlt : nyfsAclInlineCount < aces.length) (hmax : aces.length ≤ nyfsMaxTotalAces) {b : Nat}
    (hb : b ≠ nyfsBlknoNone) {f : Nat → UInt8}
    (hblock : V.block b = splice f 0 ((aces.drop nyfsAclInlineCount).flatMap encodeAce)) :
    ({ x.withInlineAces aces with
      aceCount := nyfsAclInlineCount
      aclOverflowBlock := b
      aclOverflowCount := aces.length - nyfsAclInlineCount } : Inode).aces V = aces := by
  have hfour : nyfsAclInlineCount = 4 := rfl
  have hsixty : nyfsMaxTotalAces = 64 := rfl
  have hn : min (min nyfsAclInlineCount nyfsAclInlineCount) nyfsMaxTotalAces =
      nyfsAclInlineCount := by
    decide
  have hextra : min (aces.length - nyfsAclInlineCount) (nyfsMaxTotalAces - nyfsAclInlineCount) =
      (aces.drop nyfsAclInlineCount).length := by
    rw [List.length_drop]
    omega
  have htake := take_withInlineAces x aces
  rw [Nat.min_eq_right hlt.le] at htake
  unfold Inode.aces
  dsimp only
  rw [hn, if_pos ⟨hb, by omega, by decide⟩, hextra, hblock, ← length_flatMap_encodeAce,
    bytesAt_splice_self, decodeAces_flatMap (fun ace hace => hfits ace (List.mem_of_mem_drop hace))]
  refine Eq.trans ?_ (List.take_append_drop nyfsAclInlineCount aces)
  rw [← htake]

/-- What storing an access control list comes to: the list goes into the inode and, for what
exceeds it, into a block; or that block is too small or not to be had. -/
inductive AclStored (L : Layout) (V : View) (child : Inode) (aces : List Ace) :
    Except Stop Inode → View → List Nat → Prop
  | inline (child' : Inode) (hacl : AclAt L child' []) (hbare : child'.bare = child.bare)
      (hfits : child'.Fits) (hle : aces.length ≤ nyfsAclInlineCount)
      (haces : child'.aces V = aces) :
      AclStored L V child aces (.ok child') V []
  | overflow (child' : Inode) (V' : View) (b : Nat) (hacl : AclAt L child' [b])
      (hbare : child'.bare = child.bare) (hfits : child'.Fits) (htakes : Takes L V V' [b] [b])
      (hlt : nyfsAclInlineCount < aces.length)
      (hfit : (aces.length - nyfsAclInlineCount) * 12 ≤ L.blockSize)
      (hfirst : firstClear V.blockBit L.totalBlocks 0 = some b)
      (haces : child'.aces V' = aces) :
      AclStored L V child aces (.ok child') V' [b]
  | failed (e : Nstatus) (hlt : nyfsAclInlineCount < aces.length)
      (hreason : L.blockSize < (aces.length - nyfsAclInlineCount) * 12 ∨
        firstClear V.blockBit L.totalBlocks 0 = none) :
      AclStored L V child aces (.error (.status e)) V []

theorem AclStored.takes {child : Inode} {aces : List Ace} {r : Except Stop Inode} {acl : List Nat}
    (h : AclStored L V child aces r V' acl) (hR : Ready L V) : Takes L V V' acl acl := by
  cases h with
  | inline => exact Takes.refl hR _
  | overflow child' V' b hacl hbare hfits htakes => exact htakes
  | failed => exact Takes.refl hR _

theorem does_storeAcl (hL : L.Valid) (hR : Ready L V) {child : Inode} (hchild : child.Fits)
    {aces : List Ace} (hfits : ∀ ace ∈ aces, ace.Fits) (hmax : aces.length ≤ nyfsMaxTotalAces) :
    ∃ r V' acl, Does L V (storeAcl child aces : NyfsM D _) r V' ∧
      AclStored L V child aces r V' acl := by
  have hsize := hL.blockSize_ge
  have hmax' : aces.length ≤ 64 := hmax
  unfold storeAcl
  by_cases hinline : aces.length ≤ nyfsAclInlineCount
  · rw [if_pos hinline]
    exact ⟨_, V, [], Does.pure _, AclStored.inline _ ⟨Or.inl ⟨rfl, rfl⟩, Nat.zero_le _⟩ rfl
      (hchild.setAces hfits (by omega) (by decide) (by decide)) hinline (aces_of_inline hinline)⟩
  have hlt := Nat.not_le.mp hinline
  rw [if_neg hinline]
  by_cases hbig : L.blockSize < (aces.length - nyfsAclInlineCount) * 12
  · refine ⟨_, V, [], Does.blockSize_bind ?_, AclStored.failed .Noverflow hlt (Or.inl hbig)⟩
    rw [if_pos hbig]
    exact Does.fail _
  rcases hR.allocBlock (D := D) hL with ⟨b, hfirst, hb, hclear, halloc⟩ | ⟨hfirst, hfull⟩
  · have htake := Takes.take hL hR hb hclear
    have hwrite := Takes.write htake.ready b 0
      ((aces.drop nyfsAclInlineCount).flatMap encodeAce)
    have hdoes := does_writeBlock_front (D := D) (V := V.takeBlock b) hL hb
      (by rw [length_flatMap_encodeAce, List.length_drop]; exact Nat.not_lt.mp hbig)
    have hblt : b < 2 ^ 64 := by
      have := hb.lt
      have := hL.totalBlocks_lt
      omega
    have hbne : b ≠ nyfsBlknoNone := hb.ne_zero hL
    have hfit : ({ child.withInlineAces aces with
        aceCount := nyfsAclInlineCount
        aclOverflowBlock := b
        aclOverflowCount := aces.length - nyfsAclInlineCount } : Inode).Fits :=
      hchild.setAces hfits (by decide) hblt (by omega)
    refine ⟨.ok { child.withInlineAces aces with
        aceCount := nyfsAclInlineCount
        aclOverflowBlock := b
        aclOverflowCount := aces.length - nyfsAclInlineCount }, _, [b], Does.blockSize_bind ?_,
      AclStored.overflow _ _ b ⟨Or.inr ⟨hb, rfl⟩, Nat.not_lt.mp hbig⟩ rfl hfit
        ((htake.trans hwrite).mono (by simp)) hlt (Nat.not_lt.mp hbig) hfirst
        (aces_of_overflow hfits hlt hmax hbne (Function.update_self ..))⟩
    rw [if_neg hbig]
    exact halloc.bind (hdoes.attempt_bind (Does.pure _))
  · refine ⟨_, V, [], Does.blockSize_bind ?_, AclStored.failed .NdiskFull hlt (Or.inr hfirst)⟩
    rw [if_neg hbig]
    exact hfull.bind_error

/-- A child inherits the entries of its parent. -/
theorem Node.Holds.inheritAcl (hL : L.Valid) (h : n.Holds L V x) (hR : Ready L V) {child : Inode}
    (hchild : child.Fits) (hacl : AclAt L child []) (hnone : child.aces V = []) (isDir : Bool) :
    ∃ r V' acl, Does L V (Nyfs.inheritAcl x child isDir : NyfsM D _) r V' ∧
      AclStored L V child (inheritedAces V x isDir) r V' acl := by
  by_cases hzero : (inheritedAces V x isDir).length = 0
  · refine ⟨_, V, [], (h.does_gatherAces hL).bind ?_, AclStored.inline child hacl rfl hchild
      (by rw [hzero]; exact Nat.zero_le _) (by rw [hnone, List.length_eq_zero_iff.mp hzero])⟩
    dsimp only
    rw [inheritedAces] at hzero
    rw [if_pos hzero]
    exact Does.pure child
  · obtain ⟨r, V', acl, hdoes, hstored⟩ := does_storeAcl (D := D) hL hR hchild
      (inheritedAces_fits (V := V) h.fits isDir) (length_inheritedAces_le x isDir)
    refine ⟨r, V', acl, (h.does_gatherAces hL).bind ?_, hstored⟩
    dsimp only
    rw [inheritedAces] at hzero
    rw [if_neg hzero]
    exact hdoes

/-! ## Looking up -/

/-- What a directory answers about a name. -/
def Node.lookup (n : Node) (name : List UInt8) : Except Stop (Nat × Nat) :=
  if name.length = 0 ∨ nyfsNameMax < name.length then .error (.status .NinvalidArg)
  else foundOr (n.find name)

theorem Node.Holds.does_lookup (hL : L.Valid) (h : n.Holds L V x) (htype : x.type = nyfsInoTypeDir)
    (name : List UInt8) : Does L V (dirhashLookup x name : NyfsM D _) (n.lookup name) V := by
  obtain ⟨hdir, -⟩ := h.dir htype
  unfold Node.lookup
  split
  next hbad =>
    have hroot : x.dirHashRoot ≠ nyfsBlknoNone :=
      mt (hdir.stream.chain.root_eq_none hL).mp hdir.nonempty
    rw [dirhashLookup, if_neg hroot, if_pos hbad]
    exact Does.fail _
  next hgood => exact hdir.lookup hL ⟨by omega, by omega⟩

/-- The outcome of the test that a name is not taken. -/
def Node.absent (n : Node) (name : List UInt8) : Except Stop Unit :=
  if name.length = 0 ∨ nyfsNameMax < name.length then .error (.status .NinvalidArg)
  else if (n.find name).isSome then .error (.status .NalreadyExists)
  else .ok ()

theorem Node.Holds.does_requireAbsent (hL : L.Valid) (h : n.Holds L V x)
    (htype : x.type = nyfsInoTypeDir) (name : List UInt8) :
    Does L V (requireAbsent x name : NyfsM D _) (n.absent name) V := by
  have hlookup := h.does_lookup (D := D) hL htype name
  unfold Node.lookup at hlookup
  unfold requireAbsent Node.absent
  split
  next hbad =>
    rw [if_pos hbad] at hlookup
    exact hlookup.attempt_bind_error (Does.fail _)
  next hgood =>
    rw [if_neg hgood] at hlookup
    cases hfind : n.find name with
    | none =>
        rw [hfind] at hlookup
        exact hlookup.attempt_bind_error (Does.pure ())
    | some found =>
        rw [hfind] at hlookup
        exact hlookup.attempt_bind (Does.fail _)

/-- The three answers to the test that a name is not taken. -/
theorem Node.absent_cases (n : Node) (name : List UInt8) :
    (∃ e, n.absent name = .error (.status e)) ∨
      n.absent name = .ok () ∧ NameOk name ∧ n.find name = none := by
  unfold Node.absent
  split
  next => exact Or.inl ⟨_, rfl⟩
  next hgood =>
    cases hfind : n.find name with
    | none => exact Or.inr ⟨rfl, ⟨by omega, by omega⟩, rfl⟩
    | some found => exact Or.inl ⟨_, rfl⟩

/-! ## What stays -/

/-- An inode without the fields that follow its directory. -/
def Inode.core (x : Inode) : Inode :=
  { x with dirEntryCount := 0, checksum := 0 }

/-- The attributes and the data of an inode are the same in both views. -/
structure Kept (L : Layout) (V : View) (nodes : Nat → Node) (V' : View) (nodes' : Nat → Node)
    (j : Nat) : Prop where
  live : Live L V' j
  core : (V'.inode j).core = (V.inode j).core
  data : (nodes' j).data = (nodes j).data
  acl : (nodes' j).acl = (nodes j).acl
  block : ∀ b ∈ (nodes j).body, V'.block b = V.block b

theorem Kept.refl {j : Nat} (hj : Live L V j) : Kept L V nodes V nodes j :=
  ⟨hj, rfl, rfl, rfl, fun _ _ => rfl⟩

theorem Kept.trans {V'' : View} {nodes'' : Nat → Node} {j : Nat} (h : Kept L V nodes V' nodes' j)
    (h' : Kept L V' nodes' V'' nodes'' j) : Kept L V nodes V'' nodes'' j where
  live := h'.live
  core := h'.core.trans h.core
  data := h'.data.trans h.data
  acl := h'.acl.trans h.acl
  block b hb := by
    rw [h'.block b (by rw [Node.body, h.data, h.acl]; exact hb), h.block b hb]

/-- The list of an inode depends on its inline fields and its block. -/
theorem AclAt.aces_congr {y : Inode} {acl : List Nat} (h : AclAt L x acl)
    (hcore : y.core = x.core) (hblock : ∀ b ∈ acl, V'.block b = V.block b) :
    y.aces V' = x.aces V := by
  have hsame : y.aces V' = x.aces V' :=
    show y.core.aces V' = x.core.aces V' from congrArg (fun z : Inode => z.aces V') hcore
  rw [hsame]
  unfold Inode.aces
  dsimp only
  split
  next hcond =>
    rcases h.block with ⟨hnone, -⟩ | ⟨-, hacl⟩
    · exact absurd hnone hcond.1
    · rw [hblock _ (by rw [hacl]; exact List.mem_singleton_self _)]
  next => rfl

/-- An inode that is kept has kept its access control list. -/
theorem Kept.aces {j : Nat} (h : Kept L V nodes V' nodes' j)
    (hold : (nodes j).Holds L V (V.inode j)) : (V'.inode j).aces V' = (V.inode j).aces V :=
  hold.acl.aces_congr h.core (fun b hb => h.block b (List.mem_append_right _ hb))

theorem live_withInodes {f : Nat → Inode} : Live L (V.withInodes f) i ↔ Live L V i :=
  ⟨fun h => ⟨h.ne_zero, h.lt, h.set⟩, fun h => ⟨h.ne_zero, h.lt, h.set⟩⟩

theorem live_congr (h : V'.inodeBit = V.inodeBit) : Live L V' i ↔ Live L V i :=
  ⟨fun hi => ⟨hi.ne_zero, hi.lt, by rw [← h]; exact hi.set⟩,
    fun hi => ⟨hi.ne_zero, hi.lt, by rw [h]; exact hi.set⟩⟩

theorem Ready.withInodes {f g : Nat → Inode} (h : Ready L (V.withInodes f)) :
    Ready L (V.withInodes g) :=
  ⟨h.metadata, h.freeBlocks, h.freeInodes, h.reserved⟩

theorem Takes.withInodes {taken touched : List Nat} (h : Takes L V V' taken touched)
    (f : Nat → Inode) : Takes L (V.withInodes f) (V'.withInodes f) taken touched :=
  ⟨⟨h.ready.metadata, h.ready.freeBlocks, h.ready.freeInodes, h.ready.reserved⟩, h.blockBit, h.fresh,
    h.nodup, h.inodeBit, rfl, h.block⟩

/-! ## Changing a directory -/

section Directories

variable (hL : L.Valid) {f : Nat → Inode} {p : Nat}

/-- The directory of a pending inode has got another table. -/
theorem Owned.retable {segs : List Segment} {buckets : Nat → List Record} {free : Nat}
    {taken touched : List Nat} (h : Owned L (V.withInodes f) nodes) (hp : Live L V p)
    (hx : f p = sealInode p x) (htype : x.type = nyfsInoTypeDir)
    (htakes : Takes L V V' taken touched)
    (hperm : (chainBlocks segs).Perm (taken ++ chainBlocks (nodes p).table))
    (htouch : touched ⊆ chainBlocks segs) (hdir : Dir L V' x.dirHashRoot segs buckets free)
    (hcount : (entries buckets).length < 2 ^ 64) :
    Owned L (V'.withInodes (Function.update f p
        (sealInode p { x with dirEntryCount := (entries buckets).length })))
      (Function.update nodes p { nodes p with table := segs, buckets := buckets, free := free }) ∧
    ∀ j, Live L V j → Kept L (V.withInodes f) nodes
      (V'.withInodes (Function.update f p
        (sealInode p { x with dirEntryCount := (entries buckets).length })))
      (Function.update nodes p { nodes p with table := segs, buckets := buckets, free := free })
      j := by
  have hpW := (live_withInodes (f := f)).mpr hp
  have hold := h.holds p hpW
  have htakesW := htakes.withInodes f
  have hpermW : (({ nodes p with table := segs, buckets := buckets, free := free } : Node).blocks).Perm
      (taken ++ (nodes p).blocks) := by
    have hstep : ((nodes p).body ++ chainBlocks segs).Perm
        ((nodes p).body ++ (taken ++ chainBlocks (nodes p).table)) :=
      hperm.append_left _
    refine hstep.trans ?_
    rw [← List.append_assoc, Node.blocks, ← List.append_assoc]
    exact List.perm_append_comm.append_right _
  have htouchW : touched ⊆
      ({ nodes p with table := segs, buckets := buckets, free := free } : Node).blocks :=
    fun b hb => List.mem_append_right _ (htouch hb)
  -- the rest of the directory is none of the touched blocks
  have hbody : ∀ b ∈ (nodes p).body, V'.block b = V.block b := by
    intro b hb
    refine htakes.block b (fun hmem => ?_)
    have hset := h.set p hpW b (List.mem_append_left _ hb)
    rcases List.mem_append.mp (hperm.mem_iff.mp (htouch hmem)) with hmem | hmem
    · have hclear : V.blockBit b = false := (htakes.fresh b hmem).2
      rw [show V.blockBit b = true from hset] at hclear
      cases hclear
    · exact (List.nodup_append.mp (h.nodup p hpW)).2.2 b hb b hmem rfl
  have hholds : ({ nodes p with table := segs, buckets := buckets, free := free } : Node).Holds L
      (V'.withInodes f) (sealInode p { x with dirEntryCount := (entries buckets).length }) := by
    change (nodes p).Holds L _ (f p) at hold
    rw [hx] at hold
    exact {
      fits := hold.fits.setEntryCount hcount
      linkCount := hold.linkCount
      acl := ⟨hold.acl.block, hold.acl.fits⟩
      data := hold.data.congr (fun b hb =>
        hbody b (List.mem_append_left _ (List.mem_append_left _ hb)))
      type := hold.type
      file := fun hfile => by
        change x.type = nyfsInoTypeFile at hfile
        rw [htype] at hfile
        cases hfile
      dir := fun _ => ⟨hdir.congr (fun _ _ => rfl), rfl⟩ }
  refine ⟨h.replace hpW htakesW hpermW htouchW (sealInode_sealed _ _) hholds, fun j hj => ?_⟩
  have hjW := (live_withInodes (f := f)).mpr hj
  have hlive : Live L V' j := (live_congr htakes.inodeBit).mpr hj
  by_cases hjp : j = p
  · subst hjp
    refine ⟨live_withInodes.mpr hlive, ?_, ?_, ?_, hbody⟩
    · change (Function.update f j _ j).core = (f j).core
      rw [Function.update_self, hx]
      rfl
    · rw [Function.update_self]
    · rw [Function.update_self]
  · refine ⟨live_withInodes.mpr hlive, ?_, ?_, ?_, fun b hb => ?_⟩
    · change (Function.update f p _ j).core = (f j).core
      rw [Function.update_of_ne hjp]
    · rw [Function.update_of_ne hjp]
    · rw [Function.update_of_ne hjp]
    · exact (h.others htakesW hpermW.subset htouchW hjW (h.apart j p hjW hpW hjp)
        (List.mem_append_left _ hb)).2.1

/-- What a change of a directory leaves behind: the inventory with the pending inode, the other
nodes, and the blocks that the table has taken. -/
structure Edited (L : Layout) (V : View) (f : Nat → Inode) (nodes : Nat → Node) (p : Nat)
    (x : Inode) (V' : View) (x' : Inode) (nodes' : Nat → Node) (taken : List Nat) : Prop where
  inventory : Inventory L (V'.withInodes (Function.update f p (sealInode p x'))) nodes'
  inode : V'.inode = V.inode
  inodeBit : V'.inodeBit = V.inodeBit
  core : x'.core = x.core
  kept : ∀ j, Live L V j → Kept L (V.withInodes f) nodes
    (V'.withInodes (Function.update f p (sealInode p x'))) nodes' j
  others : ∀ j, j ≠ p → nodes' j = nodes j
  blockBit : V'.blockBit = mark V.blockBit taken
  table : ∀ b ∈ taken, b ∈ chainBlocks (nodes' p).table

/-- Room for a record: in the table, or in a block that it can take. -/
def Node.HasRoom (L : Layout) (V : View) (n : Node) (name : List UInt8) : Prop :=
  n.free + 24 + name.length ≤ capacity L n.table ∨ planOne L V.blockBit (tailOf n.table) ≠ none

theorem type_update {y : Inode} (hx : f p = sealInode p x) (hy : y.type = x.type) (j : Nat) :
    (Function.update f p (sealInode p y) j).type = (f j).type := by
  by_cases hj : j = p
  · rw [hj, Function.update_self, hx]
    exact hy
  · rw [Function.update_of_ne hj]

include hL

/-- A name goes into a directory, or there is no room and nothing but bytes behind the table
has changed. -/
theorem Inventory.insertName (h : Inventory L (V.withInodes f) nodes) (hp : Live L V p)
    (hx : f p = sealInode p x) (htype : x.type = nyfsInoTypeDir) {name : List UInt8}
    (hname : NameOk name) (hfresh : (nodes p).find name = none) {ino type : Nat}
    (hino : Live L V ino) (hroot : ino ≠ nyfsRootIno) (hdirent : type = direntType (f ino))
    (hnew : ∀ j, Live L V j → ∀ s ∈ (nodes j).records, s.ino ≠ ino) :
    ∃ res x' V' nodes' taken,
      Does L V (dirhashInsert x name ino type : NyfsM D _) (.ok (res, x')) V' ∧
      Edited L V f nodes p x V' x' nodes' taken ∧
      ((res = .ok () ∧
          (nodes' p).find = Function.update (nodes p).find name (some (ino, type)) ∧
          (nodes p).HasRoom L V name ∧
          (nodes' p).free = (nodes p).free + recordSize name.length ∧
          ((nodes p).free + 24 + name.length ≤ capacity L (nodes p).table →
            taken = [] ∧ (nodes' p).table = (nodes p).table)) ∨
        (res = .error .NdiskFull ∧ x' = x ∧ nodes' = nodes ∧ taken = [] ∧
          ¬(nodes p).HasRoom L V name)) := by
  have hpW := (live_withInodes (f := f)).mpr hp
  have hold := h.holds p hpW
  change (nodes p).Holds L _ (f p) at hold
  rw [hx] at hold
  obtain ⟨hdirW, hcount⟩ := hold.dir htype
  have hdir : Dir L V x.dirHashRoot (nodes p).table (nodes p).buckets (nodes p).free :=
    hdirW.congr (fun _ _ => rfl)
  have hR : Ready L V := h.ready.withInodes (g := V.inode)
  have hset : ∀ b ∈ chainBlocks (nodes p).table, V.blockBit b = true :=
    fun b hb => h.set p hpW b (List.mem_append_right _ hb)
  have hinolt : ino < 2 ^ 64 := by
    have := hino.lt
    have := hL.inodeCount_lt
    omega
  have htypelt : type < 256 := by
    rw [hdirent, direntType]
    split
    next => decide
    next => decide
  have hrecord : recordOf (nodes p).buckets name = none := Option.map_eq_none_iff.mp hfresh
  obtain ⟨res, x', segs', buckets', free', V', taken, hdoes, hins⟩ :=
    hdir.insert (D := D) hL hR hset hname hrecord hinolt htypelt
  have hcount' : (entries buckets').length < 2 ^ 64 := by
    have := hins.holds.table.length_entries_le
    have := hins.holds.free_lt hL
    omega
  obtain ⟨howned, hkept⟩ := h.toOwned.retable hp hx htype hins.long.takes hins.long.perm
    (List.Subset.refl _) hins.holds hcount'
  have hnot : ∀ j, j ≠ p → Function.update nodes p
      { nodes p with table := segs', buckets := buckets', free := free' } j = nodes j :=
    fun j hj => Function.update_of_ne hj ..
  have hb : nyfsHashName name % nyfsDirhashDefaultBuckets < nyfsDirhashDefaultBuckets :=
    Nat.mod_lt _ (by decide)
  have hmem : ∀ b ∈ taken, b ∈ chainBlocks segs' :=
    fun b hb => hins.long.perm.mem_iff.mpr (List.mem_append_left _ hb)
  rcases hins.outcome with ⟨rfl, rfl, rfl, hfree, hroom⟩ | ⟨rfl, rfl, rfl, rfl, rfl, rfl, hlt, hplan⟩
  · have hperm := entries_insert_perm (nodes p).buckets hb ⟨(nodes p).free, name, ino, type⟩
    rw [hperm.length_eq, List.length_cons] at howned hkept
    have hnamed : Named L (V'.withInodes (Function.update f p
        (sealInode p { x with dirEntryCount := (entries (nodes p).buckets).length + 1 })))
        (Function.update nodes p { nodes p with
          table := segs'
          buckets := Function.update (nodes p).buckets
            (nyfsHashName name % nyfsDirhashDefaultBuckets) (⟨(nodes p).free, name, ino, type⟩ ::
              (nodes p).buckets (nyfsHashName name % nyfsDirhashDefaultBuckets))
          free := free' }) := by
      refine h.toNamed.link (p := p) (r := ⟨(nodes p).free, name, ino, type⟩)
        hins.long.takes.inodeBit (fun j _ => type_update hx (by rfl) j) ?_ ?_
        (live_withInodes.mpr hino) hroot hdirent ?_
      · rw [Function.update_self]
        exact hperm.subset
      · intro j hj
        rw [hnot j hj]
      · intro j hj
        exact hnew j (live_withInodes.mp hj)
    refine ⟨.ok (), _, V', _, taken, hdoes, ⟨⟨howned, hnamed⟩, hins.long.takes.inode,
      hins.long.takes.inodeBit, rfl, hkept, hnot, hins.long.takes.mark_eq, ?_⟩,
      Or.inl ⟨rfl, ?_, ?_, ?_, ?_⟩⟩
    · rw [Function.update_self]
      exact hmem
    · rw [Function.update_self]
      exact Node.find_of_perm (r := ⟨(nodes p).free, name, ino, type⟩)
        (by exact hins.holds.table.names) hperm
    · exact hroom.imp (fun h => h.1) (fun h => h.2)
    · rw [Function.update_self]
      exact hfree
    · intro hle
      rw [Function.update_self]
      rcases hroom with ⟨-, hsegs, htaken⟩ | ⟨hlt, -⟩
      · exact ⟨htaken, hsegs⟩
      · exact absurd hle (Nat.not_le.mpr hlt)
  · have hself : Function.update nodes p { nodes p with
        table := (nodes p).table, buckets := (nodes p).buckets, free := (nodes p).free } = nodes :=
      Function.update_eq_self p nodes
    have hsame : ({ x' with dirEntryCount := (entries (nodes p).buckets).length } : Inode) = x' := by
      rw [show (entries (nodes p).buckets).length = x'.dirEntryCount from hcount.symm]
    rw [hself, hsame] at howned hkept
    have hnamed : Named L (V'.withInodes (Function.update f p (sealInode p x'))) nodes :=
      h.toNamed.congr hins.long.takes.inodeBit (fun j _ => type_update hx rfl j)
        (fun j _ => List.Subset.refl _)
    refine ⟨_, x', V', nodes, [], hdoes, ⟨⟨howned, hnamed⟩, hins.long.takes.inode,
      hins.long.takes.inodeBit, rfl, hkept, fun _ _ => rfl, hins.long.takes.mark_eq, ?_⟩,
      Or.inr ⟨rfl, rfl, rfl, rfl, ?_⟩⟩
    · intro b hb
      cases hb
    · rintro (hroom | hroom)
      · unfold Record.stop at hlt
        dsimp only at hlt
        omega
      · exact hroom hplan

/-- A name leaves a directory. -/
theorem Inventory.removeName (h : Inventory L (V.withInodes f) nodes) (hp : Live L V p)
    (hx : f p = sealInode p x) (htype : x.type = nyfsInoTypeDir) {name : List UInt8} {ino type : Nat}
    (hfind : (nodes p).find name = some (ino, type)) :
    ∃ x' V' nodes',
      Does L V (dirhashRemove x name : NyfsM D _) (.ok (.ok (), x')) V' ∧
      Edited L V f nodes p x V' x' nodes' [] ∧
      (nodes' p).find = Function.update (nodes p).find name none ∧
      (nodes' p).table = (nodes p).table ∧ (nodes' p).free = (nodes p).free ∧
      ∀ j, Live L V j → ∀ s ∈ (nodes' j).records, s.ino ≠ ino := by
  have hpW := (live_withInodes (f := f)).mpr hp
  have hold := h.holds p hpW
  change (nodes p).Holds L _ (f p) at hold
  rw [hx] at hold
  obtain ⟨hdirW, -⟩ := hold.dir htype
  have hdir : Dir L V x.dirHashRoot (nodes p).table (nodes p).buckets (nodes p).free :=
    hdirW.congr (fun _ _ => rfl)
  have hR : Ready L V := h.ready.withInodes (g := V.inode)
  obtain ⟨r, hr, hpair⟩ := Option.map_eq_some_iff.mp hfind
  obtain ⟨rfl, rfl⟩ := Prod.mk.inj hpair
  obtain ⟨hmem, rfl⟩ := hdir.table.recordOf_eq_some.mp hr
  have hvalid := hdir.table.valid r hmem
  obtain ⟨pre, post, V', hbucket, hdoes, hdir', htakes⟩ :=
    hdir.remove (D := D) hL hR ⟨hvalid.name_pos, hvalid.name_le⟩ hr
  have hb : nyfsHashName r.name % nyfsDirhashDefaultBuckets < nyfsDirhashDefaultBuckets :=
    Nat.mod_lt _ (by decide)
  have hperm := entries_remove_perm (nodes p).buckets hb hbucket
  have hlen : (entries (nodes p).buckets).length - 1 = (entries (Function.update (nodes p).buckets
      (nyfsHashName r.name % nyfsDirhashDefaultBuckets) (pre ++ post))).length := by
    rw [hperm.length_eq, List.length_cons, Nat.add_sub_cancel]
  rw [hlen] at hdoes
  have hcount' := hdir'.table.length_entries_le
  have hfree := hdir'.free_lt hL
  obtain ⟨howned, hkept⟩ := h.toOwned.retable hp hx htype htakes (List.Perm.refl _)
    (List.subset_append_right _ _) hdir' (by omega)
  have hnot : ∀ j, j ≠ p → Function.update nodes p
      { nodes p with
        table := (nodes p).table
        buckets := Function.update (nodes p).buckets
          (nyfsHashName r.name % nyfsDirhashDefaultBuckets) (pre ++ post)
        free := (nodes p).free } j = nodes j :=
    fun j hj => Function.update_of_ne hj ..
  have hsub : ∀ j, (Function.update nodes p
      { nodes p with
        table := (nodes p).table
        buckets := Function.update (nodes p).buckets
          (nyfsHashName r.name % nyfsDirhashDefaultBuckets) (pre ++ post)
        free := (nodes p).free } j).records ⊆ (nodes j).records := by
    intro j
    by_cases hj : j = p
    · rw [hj, Function.update_self]
      exact fun s hs => hperm.mem_iff.mpr (List.mem_cons_of_mem _ hs)
    · rw [hnot j hj]
      exact List.Subset.refl _
  refine ⟨_, V', _, hdoes, ⟨⟨howned, ?_⟩, htakes.inode, htakes.inodeBit, rfl, hkept, hnot,
    htakes.mark_eq, ?_⟩, ?_, ?_, ?_, ?_⟩
  · refine h.toNamed.congr htakes.inodeBit (fun j _ => ?_) (fun j _ => hsub j)
    exact type_update hx (by rfl) j
  · intro b hb
    cases hb
  · rw [Function.update_self]
    exact Node.find_of_perm_erase hdir.table.names hperm
  · rw [Function.update_self]
  · rw [Function.update_self]
  · intro j hj s hs heq
    have hold := h.once j p (live_withInodes.mpr hj) hpW s (hsub j hs) r hmem heq
    obtain ⟨rfl, rfl⟩ := hold
    rw [Function.update_self] at hs
    have hnodup := hperm.nodup_iff.mp hdir.table.entries_nodup
    exact (List.nodup_cons.mp hnodup).1 hs

/-- An inode to which no name leads goes with its streams. -/
theorem Inventory.dropLink (h : Inventory L V nodes) {t : Nat} (ht : Live L V t)
    (hroot : t ≠ nyfsRootIno) (hnew : ∀ j, Live L V j → ∀ s ∈ (nodes j).records, s.ino ≠ t) :
    ∃ V', Does L V (Nyfs.dropLink t (V.inode t) : NyfsM D _) (.ok ()) V' ∧
      Inventory L V' nodes ∧ V'.inodeBit = Function.update V.inodeBit t false ∧
      V'.inode = V.inode ∧ V'.block = V.block ∧
      ∀ b, V'.blockBit b = (V.blockBit b &&
        !decide (b ∈ chainBlocks (nodes t).table ++ chainBlocks (nodes t).data)) := by
  have hold := h.holds t ht
  have hset := h.set t ht
  have hnodup := h.nodup t ht
  -- the table goes first
  obtain ⟨V₁, hdoes₁, hrel₁⟩ : ∃ V₁, (∀ {r : Except Stop Unit} {V' : View}
      (k : Unit → NyfsM D Unit), Does L V₁ (k ()) r V' →
        Does L V (if (V.inode t).type = nyfsInoTypeDir then
          ignoreStatus (freeExtentChain (V.inode t).dirHashRoot) >>= k else k ()) r V') ∧
      Releases L V V₁ (chainBlocks (nodes t).table) := by
    rcases hold.type with hfile | hdirtype
    · obtain ⟨-, htable, -⟩ := hold.file hfile
      refine ⟨V, fun k hk => ?_, ?_⟩
      · rw [if_neg (by rw [hfile]; decide)]
        exact hk
      · rw [htable]
        exact Releases.refl h.ready
    · obtain ⟨hdir, -⟩ := hold.dir hdirtype
      obtain ⟨V₁, hdoes, hrel⟩ := hdir.stream.freeChain (D := D) hL h.ready
        (fun b hb => hset b (List.mem_append_right _ hb))
      refine ⟨V₁, fun k hk => ?_, hrel⟩
      rw [if_pos hdirtype]
      exact (does_ignoreStatus hdoes).bind hk
  have hdata : Stream L V₁ (V.inode t).dataExtentRoot (nodes t).data :=
    hold.data.congr (fun b _ => by rw [hrel₁.block])
  obtain ⟨V₂, hdoes₂, hrel₂⟩ := hdata.freeChain (D := D) hL hrel₁.ready (by
    intro b hb
    rw [hrel₁.blockBit, hset b (List.mem_append_left _ (List.mem_append_left _ hb))]
    have hnot : b ∉ chainBlocks (nodes t).table := fun hmem =>
      (List.nodup_append.mp hnodup).2.2 b (List.mem_append_left _ hb) b hmem rfl
    rw [decide_eq_false hnot]
    rfl)
  have hrel := hrel₁.trans hrel₂
  have hset₂ : V₂.inodeBit t = true := by
    rw [hrel.inodeBit]
    exact ht.set
  refine ⟨V₂.dropInode t, ?_, ⟨?_, ?_⟩, ?_, hrel.inode, hrel.block, hrel.blockBit⟩
  · unfold Nyfs.dropLink
    rw [if_pos (by rw [hold.linkCount])]
    refine hdoes₁ (fun _ => ignoreStatus (freeExtentChain (V.inode t).dataExtentRoot) >>= fun _ =>
      ignoreStatus (freeInode t)) ((does_ignoreStatus hdoes₂).bind ?_)
    exact does_ignoreStatus (does_freeInode hL ht.ne_zero ht.lt)
  · refine h.toOwned.drop (i := t) (hrel.ready.dropInode hL ht.ne_zero ht.lt hset₂) ?_ hrel.inode
      hrel.block ?_
    · change Function.update V₂.inodeBit t false = _
      rw [hrel.inodeBit]
    · intro j hj hjt b hb
      change V₂.blockBit b = true
      rw [hrel.blockBit, h.set j hj b hb]
      have hapart := h.apart j t hj ht hjt hb
      have hnot : b ∉ chainBlocks (nodes t).table ++ chainBlocks (nodes t).data := by
        intro hmem
        rcases List.mem_append.mp hmem with hmem | hmem
        · exact hapart (List.mem_append_right _ hmem)
        · exact hapart (List.mem_append_left _ (List.mem_append_left _ hmem))
      rw [decide_eq_false hnot]
      rfl
  · have hlive : ∀ j, Live L (V₂.dropInode t) j ↔ Live L V j ∧ j ≠ t := by
      intro j
      refine live_drop ?_
      rw [← hrel.inodeBit]
      rfl
    refine h.toNamed.sub ((hlive _).mpr ⟨h.root.1, hroot.symm⟩) ?_ ?_
    · intro j hj
      change (V₂.inode j).type = _
      rw [hrel.inode]
    · intro j hj r hr
      obtain ⟨hj', -⟩ := (hlive j).mp hj
      exact ⟨hj', hr, (hlive _).mpr ⟨(h.target j hj' r hr).1, hnew j hj' r hr⟩⟩
  · change Function.update V₂.inodeBit t false = _
    rw [hrel.inodeBit]

end Directories

end Nyfs
end Nyxis
