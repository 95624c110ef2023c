import Nyxis.Nyfs.Runs

/-!
# What an access check decides

{lit}`nyfs_check_access` on a volume with any bytes on it, against the whole access control list
that an inode has.  The check gathers the list into an array of {lit}`NYFS_MAX_TOTAL_ACES` entries,
and a block of 1024 bytes or more has room for a list that is longer.

Main results:

- Theorem {lit}`aclGrants_iff`: the two passes over a list decide what the entries permit.
- Theorem {lit}`checkAccess_stored`: the check decides on the front of the stored list.
- Theorem {lit}`access_honours_list_iff`: when this is the decision of the whole list.
- Theorem {lit}`creator_cannot_remove`: mode bits never grant a removal.
-/

namespace Nyxis
namespace Nyfs

open Bytes

variable {D : Type} [ReliableDevice D] {v : Volume D} {x : Inode}

/-! ## What a list permits -/

/-- An entry that applies to the credential on the inode that has it: it is not for inheriting
only, and its id is everyone, the user or, with the group flag, the group. -/
def Ace.AppliesTo (ace : Ace) (cred : Cred) : Prop :=
  ace.flags &&& nyfsAceFlagInheritOnly = 0 ∧
    (ace.id = nyfsIdEveryone ∨
      (ace.flags &&& nyfsAceFlagGroup = 0 ∧ ace.id = cred.uid) ∨
      (ace.flags &&& nyfsAceFlagGroup ≠ 0 ∧ ace.id = cred.gid))

instance (ace : Ace) (cred : Cred) : Decidable (ace.AppliesTo cred) :=
  inferInstanceAs (Decidable (_ ∧ _))

/-- Some deny entry that applies meets the mask. -/
def Refuses (aces : List Ace) (cred : Cred) (mask : Nat) : Prop :=
  ∃ ace ∈ aces, ace.type = nyfsAceTypeDeny ∧ ace.AppliesTo cred ∧ ace.accessMask &&& mask ≠ 0

instance (aces : List Ace) (cred : Cred) (mask : Nat) : Decidable (Refuses aces cred mask) :=
  inferInstanceAs (Decidable (∃ ace ∈ aces, _))

/-- Every bit of the mask is in some allow entry that applies. -/
def Covers (aces : List Ace) (cred : Cred) (mask : Nat) : Prop :=
  ∀ bit, mask.testBit bit = true → ∃ ace ∈ aces,
    ace.type = nyfsAceTypeAllow ∧ ace.AppliesTo cred ∧ ace.accessMask.testBit bit = true

/-- The decision of a list, which is about its entries and not about their order. -/
def Permits (aces : List Ace) (cred : Cred) (mask : Nat) : Prop :=
  ¬Refuses aces cred mask ∧ Covers aces cred mask

theorem aceApplies_iff {type : Nat} {cred : Cred} {ace : Ace} :
    aceApplies type cred ace = true ↔ ace.type = type ∧ ace.AppliesTo cred := by
  have hid : aceIdMatches ace cred = true ↔ ace.id = nyfsIdEveryone ∨
      (ace.flags &&& nyfsAceFlagGroup = 0 ∧ ace.id = cred.uid) ∨
      (ace.flags &&& nyfsAceFlagGroup ≠ 0 ∧ ace.id = cred.gid) := by
    unfold aceIdMatches
    by_cases hall : ace.id = nyfsIdEveryone
    · simp [hall]
    · by_cases hgroup : ace.flags &&& nyfsAceFlagGroup = 0
      · simp [hall, hgroup]
      · simp [hall, hgroup]
  rw [aceApplies, decide_eq_true_iff, hid, Ace.AppliesTo]
  exact and_left_comm

/-- The bits that the allow entries of a list have together. -/
theorem testBit_granted (aces : List Ace) (start bit : Nat) :
    (aces.foldl (fun mask ace => mask ||| ace.accessMask) start).testBit bit = true ↔
      start.testBit bit = true ∨ ∃ ace ∈ aces, ace.accessMask.testBit bit = true := by
  induction aces generalizing start with
  | nil => simp
  | cons ace aces ih =>
      rw [List.foldl_cons, ih, Nat.testBit_or, Bool.or_eq_true, List.exists_mem_cons_iff, or_assoc]

/-- A mask is covered when each of its bits is. -/
theorem and_eq_self_iff {mask granted : Nat} :
    mask &&& granted = mask ↔
      ∀ bit, mask.testBit bit = true → granted.testBit bit = true := by
  constructor
  · intro h bit hbit
    rw [← h, Nat.testBit_and, Bool.and_eq_true] at hbit
    exact hbit.2
  · intro h
    refine Nat.eq_of_testBit_eq (fun bit => ?_)
    rw [Nat.testBit_and]
    cases hbit : mask.testBit bit with
    | false => rfl
    | true => rw [h bit hbit]; rfl

/-- The two passes decide what the entries permit. -/
theorem aclGrants_iff {aces : List Ace} {cred : Cred} {mask : Nat} :
    aclGrants aces cred mask = true ↔ Permits aces cred mask := by
  unfold aclGrants Permits
  dsimp only
  rw [Bool.and_eq_true, Bool.not_eq_true', beq_iff_eq]
  refine and_congr ?_ ?_
  · rw [← Bool.not_eq_true, not_iff_not, List.any_eq_true]
    refine exists_congr (fun ace => and_congr_right (fun _ => ?_))
    rw [Bool.and_eq_true, aceApplies_iff, bne_iff_ne, and_assoc]
  · rw [and_eq_self_iff]
    refine forall_congr' (fun bit => imp_congr_right (fun _ => ?_))
    rw [testBit_granted, Nat.zero_testBit]
    constructor
    · rintro (hzero | ⟨ace, hace, hbit⟩)
      · cases hzero
      · obtain ⟨hmem, happlies⟩ := List.mem_filter.mp hace
        obtain ⟨htype, happlies⟩ := aceApplies_iff.mp happlies
        exact ⟨ace, hmem, htype, happlies, hbit⟩
    · rintro ⟨ace, hmem, htype, happlies, hbit⟩
      exact Or.inr ⟨ace, List.mem_filter.mpr ⟨hmem, aceApplies_iff.mpr ⟨htype, happlies⟩⟩, hbit⟩

theorem refuses_append {xs ys : List Ace} {cred : Cred} {mask : Nat} :
    Refuses (xs ++ ys) cred mask ↔ Refuses xs cred mask ∨ Refuses ys cred mask := by
  unfold Refuses
  constructor
  · rintro ⟨ace, hace, hhit⟩
    rcases List.mem_append.mp hace with hace | hace
    · exact Or.inl ⟨ace, hace, hhit⟩
    · exact Or.inr ⟨ace, hace, hhit⟩
  · rintro (⟨ace, hace, hhit⟩ | ⟨ace, hace, hhit⟩)
    · exact ⟨ace, List.mem_append_left _ hace, hhit⟩
    · exact ⟨ace, List.mem_append_right _ hace, hhit⟩

theorem Covers.mono {xs ys : List Ace} {cred : Cred} {mask : Nat} (h : Covers xs cred mask)
    (hsub : xs ⊆ ys) : Covers ys cred mask := by
  intro bit hbit
  obtain ⟨ace, hace, hallow⟩ := h bit hbit
  exact ⟨ace, hsub hace, hallow⟩

/-- The order of the entries does not matter. -/
theorem permits_congr {xs ys : List Ace} (h : ∀ ace, ace ∈ xs ↔ ace ∈ ys) (cred : Cred)
    (mask : Nat) : Permits xs cred mask ↔ Permits ys cred mask := by
  unfold Permits Refuses Covers
  simp only [h]

/-! ## The stored list -/

/-- The whole access control list of an inode: the inline entries and those in the overflow
block. -/
def storedAces (v : Volume D) (x : Inode) : List Ace :=
  [x.ace0, x.ace1, x.ace2, x.ace3].take x.aceCount ++
    if x.aclOverflowBlock = nyfsBlknoNone then []
    else decodeAces x.aclOverflowCount (bytesAt (ReliableDevice.content v.disk)
      (x.aclOverflowBlock * v.blockSize % 2 ^ 64) (x.aclOverflowCount * 12))

theorem length_decodeAces (count : Nat) (bytes : List UInt8) :
    (decodeAces count bytes).length = count := by
  induction count generalizing bytes with
  | zero => rfl
  | succ count ih => rw [decodeAces, List.length_cons, ih]

/-- Reading fewer entries gives the first ones. -/
theorem take_decodeAces {f : Nat → UInt8} {offset k count : Nat} (h : k ≤ count) :
    (decodeAces count (bytesAt f offset (count * 12))).take k =
      decodeAces k (bytesAt f offset (k * 12)) := by
  have hfirst : ∀ (offset rest : Nat),
      decodeAce (bytesAt f offset (12 + rest)) = decodeAce (bytesAt f offset 12) := by
    intro offset rest
    rw [bytesAt_add, decodeAce, unpack_append (by rw [length_bytesAt]; rfl), decodeAce]
  have hrest : ∀ (offset rest : Nat),
      (bytesAt f offset (12 + rest)).drop 12 = bytesAt f (offset + 12) rest := by
    intro offset rest
    rw [drop_bytesAt f offset (Nat.le_add_right _ _), Nat.add_sub_cancel_left]
  induction k generalizing offset count with
  | zero => rfl
  | succ k ih =>
      obtain ⟨count, rfl⟩ : ∃ m, count = m + 1 := ⟨count - 1, by omega⟩
      have hmul : ∀ m, (m + 1) * 12 = 12 + m * 12 := by
        intro m
        omega
      rw [hmul, hmul, decodeAces, decodeAces, List.take_succ_cons, hfirst, hfirst, hrest, hrest,
        ih (by omega)]

/-- Gathering returns the front of the stored list. -/
theorem gatherAces_eq (v : Volume D) (x : Inode) :
    gatherAces x nyfsMaxTotalAces v = (.ok ((storedAces v x).take nyfsMaxTotalAces), v) := by
  obtain ⟨inline, hinline⟩ : ∃ l, l = [x.ace0, x.ace1, x.ace2, x.ace3].take x.aceCount := ⟨_, rfl⟩
  have hlength : inline.length = min x.aceCount nyfsAclInlineCount := by
    rw [hinline, List.length_take]
    rfl
  have hle : nyfsAclInlineCount < nyfsMaxTotalAces := by
    decide
  have hn : min (min x.aceCount nyfsAclInlineCount) nyfsMaxTotalAces = inline.length := by
    omega
  have htake : [x.ace0, x.ace1, x.ace2, x.ace3].take inline.length = inline := by
    rw [hlength, hinline, List.take_eq_take_iff]
    change min (min x.aceCount 4) 4 = min x.aceCount 4
    omega
  have hlt : inline.length < nyfsMaxTotalAces := by
    omega
  unfold gatherAces storedAces
  dsimp only
  rw [hn, htake, ← hinline, List.take_append, List.take_of_length_le hlt.le]
  by_cases hcond : x.aclOverflowBlock ≠ nyfsBlknoNone ∧ 0 < x.aclOverflowCount
  · rw [if_pos ⟨hcond.1, hcond.2, hlt⟩, if_neg hcond.1, Eff.gets_bind_run,
      Eff.bind_ok (rawRead_eq v _ _), Eff.pure_run, ← take_decodeAces (Nat.min_le_left _ _)]
    congr 3
    rw [List.take_eq_take_iff, length_decodeAces]
    omega
  · have hnil : (if x.aclOverflowBlock = nyfsBlknoNone then [] else decodeAces x.aclOverflowCount
        (bytesAt (ReliableDevice.content v.disk) (x.aclOverflowBlock * v.blockSize % 2 ^ 64)
          (x.aclOverflowCount * 12))) = [] := by
      by_cases hnone : x.aclOverflowBlock = nyfsBlknoNone
      · exact if_pos hnone
      · have hzero : x.aclOverflowCount = 0 := by
          by_contra hpos
          exact hcond ⟨hnone, Nat.pos_of_ne_zero hpos⟩
        rw [if_neg hnone, hzero]
        rfl
    rw [if_neg (fun h => hcond ⟨h.1, h.2.1⟩), hnil, List.take_nil, List.append_nil]
    rfl

/-- The check on an inode with an access control list decides on the front of the list. -/
theorem checkAccess_stored {cred : Cred} (hcred : cred.uid ≠ 0)
    (hacl : ¬(x.aceCount = 0 ∧ x.aclOverflowCount = 0)) (mask : Nat) :
    (checkAccess x cred mask v).1 =
      if aclGrants ((storedAces v x).take nyfsMaxTotalAces) cred mask then .ok ()
      else .error (.status .Npermission) := by
  unfold checkAccess
  rw [if_neg hcred, if_neg hacl, Eff.bind_ok (gatherAces_eq v x)]
  split
  next => rfl
  next => rfl

/-- The entries that are left out change the decision: no entry in front refuses, and either an
entry behind refuses what the ones in front grant, or the ones in front do not cover the mask where
all entries do and none refuses. -/
def TailDecides (aces : List Ace) (cred : Cred) (mask : Nat) : Prop :=
  ¬Refuses (aces.take nyfsMaxTotalAces) cred mask ∧
    (Covers (aces.take nyfsMaxTotalAces) cred mask ∧ Refuses (aces.drop nyfsMaxTotalAces) cred mask ∨
      ¬Covers (aces.take nyfsMaxTotalAces) cred mask ∧ Covers aces cred mask ∧
        ¬Refuses (aces.drop nyfsMaxTotalAces) cred mask)

/-- A list that is gathered whole leaves nothing out. -/
theorem not_tailDecides {aces : List Ace} (h : aces.length ≤ nyfsMaxTotalAces) (cred : Cred)
    (mask : Nat) : ¬TailDecides aces cred mask := by
  unfold TailDecides
  rw [List.take_of_length_le h, List.drop_eq_nil_of_le h]
  rintro ⟨-, ⟨-, ace, hace, -⟩ | ⟨hno, hyes, -⟩⟩
  · cases hace
  · exact hno hyes

/-- The front of a list decides as the whole list does unless the rest of it decides. -/
theorem permits_take_iff {aces : List Ace} {cred : Cred} {mask : Nat} :
    (Permits (aces.take nyfsMaxTotalAces) cred mask ↔ Permits aces cred mask) ↔
      ¬TailDecides aces cred mask := by
  have hrefuses : Refuses aces cred mask ↔ Refuses (aces.take nyfsMaxTotalAces) cred mask ∨
      Refuses (aces.drop nyfsMaxTotalAces) cred mask := by
    rw [← refuses_append, List.take_append_drop]
  have hcovers : Covers (aces.take nyfsMaxTotalAces) cred mask → Covers aces cred mask :=
    fun h => h.mono (List.take_subset _ _)
  unfold Permits TailDecides
  rw [hrefuses]
  tauto

/-- The check honours the whole stored list exactly when the entries that are not gathered do not
decide.  Where they do not, the order of the entries does not matter either. -/
theorem access_honours_list_iff {cred : Cred} (hcred : cred.uid ≠ 0)
    (hacl : ¬(x.aceCount = 0 ∧ x.aclOverflowCount = 0)) (mask : Nat) :
    (((checkAccess x cred mask v).1 = .ok () ↔ Permits (storedAces v x) cred mask) ↔
      ¬TailDecides (storedAces v x) cred mask) ∧
    ∀ (w : Volume D) (y : Inode), ¬(y.aceCount = 0 ∧ y.aclOverflowCount = 0) →
      (storedAces w y).Perm (storedAces v x) → ¬TailDecides (storedAces v x) cred mask →
      ¬TailDecides (storedAces w y) cred mask →
      (checkAccess y cred mask w).1 = (checkAccess x cred mask v).1 := by
  have hfront : ∀ (w : Volume D) (y : Inode), ¬(y.aceCount = 0 ∧ y.aclOverflowCount = 0) →
      ((checkAccess y cred mask w).1 = .ok () ↔
        Permits ((storedAces w y).take nyfsMaxTotalAces) cred mask) := by
    intro w y hy
    rw [checkAccess_stored hcred hy, ← aclGrants_iff]
    split
    next hgrants => exact iff_of_true rfl hgrants
    next hgrants => exact iff_of_false nofun hgrants
  refine ⟨?_, fun w y hy hperm hx hw => ?_⟩
  · rw [hfront v x hacl]
    exact permits_take_iff
  · have hsame : aclGrants ((storedAces w y).take nyfsMaxTotalAces) cred mask =
        aclGrants ((storedAces v x).take nyfsMaxTotalAces) cred mask := by
      rw [Bool.eq_iff_iff, aclGrants_iff, aclGrants_iff, permits_take_iff.mpr hw,
        permits_take_iff.mpr hx]
      exact permits_congr (fun ace => hperm.mem_iff) cred mask
    rw [checkAccess_stored hcred hy, checkAccess_stored hcred hacl, hsame]

/-- A volume with blocks of 1024 bytes on which everything is zero but one entry, which denies
writing to everyone. -/
def denyVolume : Volume MemoryDisk :=
  ⟨⟨splice (fun _ => 0) (1024 + 60 * 12) (encodeAce ⟨nyfsIdEveryone, nyfsAceWriteData,
    nyfsAceTypeDeny, 0, 0⟩)⟩, true, Superblock.zero, 1024⟩

/-- An inode with four entries of its own, the first of which allows writing to everyone, and some
in the overflow block. -/
def allowInode (overflow : Nat) : Inode :=
  { Inode.zero with
    aceCount := 4
    ace0 := ⟨nyfsIdEveryone, nyfsAceWriteData, nyfsAceTypeAllow, 0, 0⟩
    aclOverflowBlock := 1
    aclOverflowCount := overflow }

theorem access_honours_list_small :
    ((checkAccess (allowInode 3) ⟨1000, 1000⟩ nyfsAceWriteData denyVolume).1 = .ok () ↔
      Permits (storedAces denyVolume (allowInode 3)) ⟨1000, 1000⟩ nyfsAceWriteData) := by
  refine (access_honours_list_iff (by decide) (by decide) nyfsAceWriteData).1.mpr ?_
  exact not_tailDecides (by decide +kernel) _ _

/-- The 65th entry denies what the first one allows. -/
theorem dropped_deny_entry :
    (allowInode 61).aclOverflowCount * 12 ≤ denyVolume.blockSize ∧
      (checkAccess (allowInode 61) ⟨1000, 1000⟩ nyfsAceWriteData denyVolume).1 = .ok () ∧
      ¬Permits (storedAces denyVolume (allowInode 61)) ⟨1000, 1000⟩ nyfsAceWriteData := by
  have hrefuses : Refuses (storedAces denyVolume (allowInode 61)) ⟨1000, 1000⟩ nyfsAceWriteData := by
    decide +kernel
  refine ⟨by decide, ?_, fun hpermits => hpermits.1 hrefuses⟩
  rw [checkAccess_stored (by decide) (by decide), if_pos (by decide +kernel)]

/-! ## Mode bits -/

/-- No mode grants the removal of a name. -/
theorem unixAccess_deleteChild (x : Inode) (cred : Cred) :
    nyfsAceDeleteChild &&& unixAccess x cred ≠ nyfsAceDeleteChild := by
  have hmode : ∀ mode r w x,
      nyfsAceDeleteChild &&& modeAccess mode r w x ≠ nyfsAceDeleteChild := by
    intro mode r w x
    unfold modeAccess
    by_cases hr : mode &&& r = 0 <;> by_cases hw : mode &&& w = 0 <;>
      by_cases hx : mode &&& x = 0 <;> simp [hr, hw, hx] <;> decide
  unfold unixAccess
  split
  next => exact hmode _ _ _ _
  next =>
    split
    next => exact hmode _ _ _ _
    next => exact hmode _ _ _ _

variable {L : Layout} {V V' : View} {nodes nodes' : Nat → Node} {p : MkfsParams} {d : D} {i : Nat}

/-- Nobody but root may remove a name from a directory without an access control list. -/
theorem not_grants_deleteChild {cred : Cred} (hcred : cred.uid ≠ 0)
    (hacl : x.aceCount = 0 ∧ x.aclOverflowCount = 0) : ¬Grants V x cred nyfsAceDeleteChild := by
  rw [Grants, if_pos hacl]
  rintro (hroot | hmask)
  · exact hcred hroot
  · exact unixAccess_deleteChild x cred hmask

/-- A removal without the right to it. -/
theorem Inventory.removeNode_denied (hL : L.Valid) (h : Inventory L V nodes) (hi : Live L V i)
    (htype : (V.inode i).type = nyfsInoTypeDir) {cred : Cred}
    (hdenied : ¬Grants V (V.inode i) cred nyfsAceDeleteChild) (name : List UInt8)
    (expectDir : Option Bool) :
    Does L V (Nyfs.removeNode i name cred expectDir : NyfsM D _) (.error (.status .Npermission))
      V := by
  have hread := h.toOwned.does_readDirInode (D := D) hL hi
  rw [if_neg (not_not.mpr htype)] at hread
  have haccess := (h.holds i hi).does_checkAccess (D := D) hL cred nyfsAceDeleteChild
  rw [if_neg hdenied] at haccess
  exact does_requireWritable.bind (hread.bind haccess.bind_error)

/-- In a directory without an access control list no user but root can remove the name that he has
created. -/
theorem creator_cannot_remove {allowed : Volume D → Request → Prop} (hsmall : p.Small)
    (h : Reachable allowed p d v) (hfound : Found v i)
    (hacl : (v.view.inode i).aceCount = 0 ∧ (v.view.inode i).aclOverflowCount = 0) {cred : Cred}
    (hfits : cred.Fits) (hcred : cred.uid ≠ 0) (name : List UInt8) (mode : Nat) (expectDir : Bool)
    {ino : Nat} (hmade : (opCreate i name mode cred v).1 = .ok ino) :
    (opRemove i name cred expectDir (opCreate i name mode cred v).2).1 =
      .error (.status .Npermission) := by
  obtain ⟨nodes, hsound⟩ := h.inventory hsmall
  have hlive := hfound.live hsound.valid hsound.mounted hsound.inventory
  obtain ⟨r, V', nodes', hdoes, hinv, hout⟩ := hsound.inventory.makeNode (D := D) hsound.valid hlive
    false name mode hfits
  obtain ⟨v', hrun, hmounted, hview, -⟩ := hdoes.run hsound.valid hsound.mounted rfl
  rw [opCreate, hrun] at hmade ⊢
  dsimp only at hmade ⊢
  cases hout with
  | failed => cases hmade
  | made i' hstarts hmade' hfits' hplace =>
      have hkept := hmade'.kept i hlive
      have hcore := hkept.core
      have htype : (V'.inode i).type = nyfsInoTypeDir :=
        (congrArg Inode.type hcore).trans hstarts.type
      have hacl' : (V'.inode i).aceCount = 0 ∧ (V'.inode i).aclOverflowCount = 0 :=
        ⟨(congrArg Inode.aceCount hcore).trans hacl.1,
          (congrArg Inode.aclOverflowCount hcore).trans hacl.2⟩
      obtain ⟨v'', hrun', -⟩ := (hinv.removeNode_denied (D := D) hsound.valid hkept.live htype
        (not_grants_deleteChild hcred hacl') name (some expectDir)).run hsound.valid hmounted hview
      rw [opRemove, hrun']

/-! ## A directory for everyone -/

/-- Root lets everyone write to the root directory. -/
def shareRoot : Request :=
  .setattr nyfsRootIno ⟨0, 0⟩ ⟨some 0o777, none, none, none⟩

/-- A directory of root without an access control list whose mode lets everyone write, and which
has room for a name. -/
structure SharedRoot (L : Layout) (V : View) (nodes : Nat → Node) (name : List UInt8) : Prop where
  noAcl : (V.inode nyfsRootIno).aceCount = 0 ∧ (V.inode nyfsRootIno).aclOverflowCount = 0
  starts : MakeStarts L V (nodes nyfsRootIno) (V.inode nyfsRootIno) name ⟨1000, 1000⟩
  fits : MakeFits L V (nodes nyfsRootIno) (V.inode nyfsRootIno) name false

/-- A fresh volume whose root directory is for everyone. -/
theorem tiny_shared (allowed : Volume D → Request → Prop) (hallowed : ∀ v, allowed v shareRoot)
    (d : D) {name : List UInt8} (hname : NameOk name) :
    ∃ v nodes, Reachable allowed (tinyParams 114) d v ∧ Sound (tinyParams 114).layout v nodes ∧
      SharedRoot (tinyParams 114).layout v.view nodes name := by
  obtain ⟨v, nodes, hreach, hsound, hfresh⟩ := tiny_opens allowed (Or.inl rfl) d
  obtain ⟨hstarts, hfirst, -, -, hroom⟩ := hfresh.takes_name hsound.valid (by decide) hname
  have hfits : shareRoot.Fits := ⟨nofun, nofun, nofun⟩
  have hroot : ∀ i ∈ shareRoot.inodes, Found v i := by
    intro i hi
    rw [List.mem_singleton.mp hi]
    exact Found.root
  obtain ⟨nodes', hsound', heffect⟩ := hsound.exec shareRoot hfits hroot
  refine ⟨_, nodes', Reachable.step hreach shareRoot hfits hroot (hallowed v), hsound', ?_⟩
  generalize shareRoot.exec v = run at hsound' heffect ⊢
  obtain ⟨r, w⟩ := run
  dsimp only at hsound' heffect ⊢
  cases heffect with
  | setattr htouches hnodes hout =>
      subst hnodes
      rcases hout with ⟨e, -, -, hzero, -⟩ | ⟨-, hview, -⟩
      · exact absurd rfl hzero
      have hinode : w.view.inode nyfsRootIno = sealInode nyfsRootIno
          { rootRecord (v.view.inode nyfsRootIno).dirHashRoot with unixMode := 0o777 } := by
        rw [hview, View.writeInode_self, hfresh.root]
        rfl
      have hfields : (w.view.inode nyfsRootIno).uid = 0 ∧ (w.view.inode nyfsRootIno).gid = 0 ∧
          (w.view.inode nyfsRootIno).unixMode = 0o777 := by
        rw [hinode]
        exact ⟨rfl, rfl, rfl⟩
      have hacl : (w.view.inode nyfsRootIno).aceCount = 0 ∧
          (w.view.inode nyfsRootIno).aclOverflowCount = 0 := by
        rw [hinode]
        exact ⟨rfl, rfl⟩
      refine ⟨hacl, ⟨?_, Or.inr ?_, hname, hstarts.absent, ?_⟩, [], [],
        aclPlan_of_no_aces hacl.1 hacl.2 false, rfl, Or.inl hroom⟩
      · rw [hinode]
        rfl
      · rw [if_pos hacl, unixAccess, hfields.1, hfields.2.1, hfields.2.2]
        decide
      · rw [htouches.inodeBit]
        exact hstarts.room

/-- The creation of a file in a directory for everyone. -/
theorem SharedRoot.make {name : List UInt8} (h : SharedRoot L v.view nodes name)
    (hsound : Sound L v nodes) (mode : Nat) :
    ∃ ino v' nodes', opCreate nyfsRootIno name mode ⟨1000, 1000⟩ v = (.ok ino, v') ∧
      Sound L v' nodes' ∧ Made L v.view nodes nyfsRootIno name
        (newInode ino nyfsInoTypeFile mode ⟨1000, 1000⟩) ino v'.view nodes' := by
  obtain ⟨r, V', nodes', hdoes, hinv, hout⟩ := hsound.inventory.makeNode (D := D) hsound.valid
    hsound.inventory.root.1 false name mode (show Cred.Fits ⟨1000, 1000⟩ from ⟨by decide, by decide⟩)
  obtain ⟨v', hrun, hmounted, rfl, -⟩ := hdoes.run hsound.valid hsound.mounted rfl
  cases hout with
  | failed _ _ _ _ _ _ _ hno => exact absurd ⟨h.starts, h.fits⟩ hno
  | made ino _ hmade => exact ⟨ino, v', nodes', hrun, ⟨hsound.valid, hmounted, hinv⟩, hmade⟩

theorem creator_cannot_remove_small : ∃ v : Volume MemoryDisk,
    Reachable anyRequest (tinyParams 114) ⟨fun _ => 0⟩ v ∧ (tinyParams 114).Small ∧
      (opRemove nyfsRootIno [97] ⟨1000, 1000⟩ false
        (opCreate nyfsRootIno [97] 0o644 ⟨1000, 1000⟩ v).2).1 = .error (.status .Npermission) := by
  have hsmall : (tinyParams 114).Small := ⟨by decide, by decide⟩
  obtain ⟨v, nodes, hreach, hsound, hshared⟩ := tiny_shared (D := MemoryDisk) anyRequest
    (fun _ => trivial) ⟨fun _ => 0⟩ nameOk_a
  obtain ⟨ino, v', nodes', hrun, -⟩ := hshared.make hsound 0o644
  exact ⟨v, hreach, hsmall, creator_cannot_remove hsmall hreach Found.root hshared.noAcl
    ⟨by decide, by decide⟩ (by decide) [97] 0o644 false (by rw [hrun])⟩

/-- A user who has made a file in a directory for everyone cannot remove it. -/
theorem own_file_stays : ∃ (v : Volume MemoryDisk) (ino : Nat),
    Reachable anyRequest (tinyParams 114) ⟨fun _ => 0⟩ v ∧
      (v.view.inode nyfsRootIno).aceCount = 0 ∧ (v.view.inode nyfsRootIno).aclOverflowCount = 0 ∧
      (opCreate nyfsRootIno [97] 0o644 ⟨1000, 1000⟩ v).1 = .ok ino ∧
      (opRemove nyfsRootIno [97] ⟨1000, 1000⟩ false
        (opCreate nyfsRootIno [97] 0o644 ⟨1000, 1000⟩ v).2).1 ≠ .ok () := by
  obtain ⟨v, nodes, hreach, hsound, hshared⟩ := tiny_shared (D := MemoryDisk) anyRequest
    (fun _ => trivial) ⟨fun _ => 0⟩ nameOk_a
  obtain ⟨ino, v', nodes', hrun, hsound', hmade⟩ := hshared.make hsound 0o644
  have hkept := hmade.kept nyfsRootIno hsound.inventory.root.1
  have hacl : (v'.view.inode nyfsRootIno).aceCount = 0 ∧
      (v'.view.inode nyfsRootIno).aclOverflowCount = 0 :=
    ⟨(congrArg Inode.aceCount hkept.core).trans hshared.noAcl.1,
      (congrArg Inode.aclOverflowCount hkept.core).trans hshared.noAcl.2⟩
  obtain ⟨v'', hrun', -⟩ := (hsound'.inventory.removeNode_denied (D := MemoryDisk) hsound'.valid
    hkept.live ((Inode.type_of_core hkept.core).trans hshared.starts.type)
    (not_grants_deleteChild (show Cred.uid ⟨1000, 1000⟩ ≠ 0 by decide) hacl) [97] (some false)).run
    hsound'.valid hsound'.mounted rfl
  refine ⟨v, ino, hreach, hshared.noAcl.1, hshared.noAcl.2, by rw [hrun], ?_⟩
  rw [hrun, opRemove, hrun']
  exact nofun

end Nyfs
end Nyxis
