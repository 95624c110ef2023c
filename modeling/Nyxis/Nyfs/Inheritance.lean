import Nyxis.Nyfs.Permissions
import Mathlib.Data.Nat.Bitwise

/-!
# Inherited access control lists

A new inode gets the entries of its parent that carry the inherit flag of its kind.  The list is
written in two places, the inode and a block, and read back from both.  Along a chain of nested
directories an entry with {lit}`NO_PROPAGATE` goes one level down, and one without it goes as far as
the directories carry it.

Main results:

- Theorem {lit}`inheritAce_passedOn`: the flags of an entry that is passed on.
- Theorem {lit}`Nest.aces_eq`: the list at any depth below a directory.
- Theorem {lit}`acl_inheritance`: on every volume that a run reaches.
-/

namespace Nyxis
namespace Nyfs

open Bytes

variable {D : Type} [ReliableDevice D] {L : Layout} {V V' : View} {nodes nodes' : Nat → Node}
variable {v w : Volume D} {p : MkfsParams} {d : D} {x : Inode}

/-! ## Flags -/

/-- The entry is for the children of a kind. -/
def carries (isDir : Bool) (ace : Ace) : Bool :=
  ace.flags &&& (if isDir then nyfsAceFlagInheritDir else nyfsAceFlagInheritFile) ≠ 0

/-- The entry is for direct children only. -/
def noPropagate (ace : Ace) : Bool :=
  ace.flags &&& nyfsAceFlagNoPropagate ≠ 0

/-- The entry gets to an inode of a kind at a depth below the directory that has it. -/
def getsTo (isDir : Bool) (depth : Nat) (ace : Ace) : Bool :=
  carries isDir ace && (depth == 1 || (!noPropagate ace && carries true ace))

/-- What an entry becomes on a child: {lit}`INHERIT_ONLY` is cleared, and with {lit}`NO_PROPAGATE`
the inherit flags and {lit}`NO_PROPAGATE` are. -/
structure PassedOn (ace child : Ace) : Prop where
  id : child.id = ace.id
  accessMask : child.accessMask = ace.accessMask
  type : child.type = ace.type
  reserved : child.reserved = ace.reserved
  flags : ∀ bit, child.flags.testBit bit =
    (ace.flags.testBit bit && bit != 3 && (!ace.flags.testBit 4 || bit != 1 && bit != 2 && bit != 4))

theorem and_flag_ne_zero_iff (flags bit : Nat) : flags &&& 2 ^ bit ≠ 0 ↔ flags.testBit bit = true := by
  rw [Nat.and_two_pow]
  cases flags.testBit bit with
  | false => simp
  | true => simp

/-- Clearing flags of a byte, bit by bit. -/
theorem testBit_and_byte {flags : Nat} (h : flags < 256) (mask bit : Nat) :
    (flags &&& mask).testBit bit = (flags.testBit bit && (decide (8 ≤ bit) || mask.testBit bit)) := by
  rw [Nat.testBit_and]
  by_cases hbit : 8 ≤ bit
  · have hzero : flags.testBit bit = false :=
      Nat.testBit_lt_two_pow (lt_of_lt_of_le h (Nat.pow_le_pow_right (n := 2) (by decide) hbit))
    rw [hzero, Bool.false_and, Bool.false_and]
  · rw [decide_eq_false hbit, Bool.false_or]

theorem keepMask_testBit (bit : Nat) :
    (decide (8 ≤ bit) || Nat.testBit 0xF7 bit) = (bit != 3) := by
  by_cases hbit : 8 ≤ bit
  · rw [decide_eq_true hbit, Bool.true_or, eq_comm, bne_iff_ne]
    omega
  · rw [decide_eq_false hbit, Bool.false_or]
    interval_cases bit <;> rfl

theorem stopMask_testBit (bit : Nat) :
    (decide (8 ≤ bit) || Nat.testBit 0xE9 bit) = (bit != 1 && bit != 2 && bit != 4) := by
  by_cases hbit : 8 ≤ bit
  · rw [decide_eq_true hbit, Bool.true_or, eq_comm, Bool.and_eq_true, Bool.and_eq_true, bne_iff_ne,
      bne_iff_ne, bne_iff_ne]
    omega
  · rw [decide_eq_false hbit, Bool.false_or]
    interval_cases bit <;> rfl

/-- An entry is passed on with its flags cleared. -/
theorem inheritAce_passedOn {ace : Ace} (h : ace.Fits) : PassedOn ace (inheritAce ace) := by
  have hflags : ace.flags < 256 := ((Ace.fits_iff ace).mp h).2.2.2.1
  have hkeep : ace.flags &&& 0xF7 < 256 := lt_of_le_of_lt Nat.and_le_left hflags
  have hiff : ace.flags &&& nyfsAceFlagNoPropagate ≠ 0 ↔ ace.flags.testBit 4 = true :=
    and_flag_ne_zero_iff ace.flags 4
  unfold inheritAce
  dsimp only
  by_cases hstop : ace.flags &&& nyfsAceFlagNoPropagate ≠ 0
  · rw [if_pos hstop]
    refine ⟨rfl, rfl, rfl, rfl, fun bit => ?_⟩
    rw [testBit_and_byte hkeep, testBit_and_byte hflags, keepMask_testBit, stopMask_testBit,
      hiff.mp hstop, Bool.not_true, Bool.false_or]
  · rw [if_neg hstop]
    refine ⟨rfl, rfl, rfl, rfl, fun bit => ?_⟩
    rw [testBit_and_byte hflags, keepMask_testBit, Bool.eq_false_iff.mpr (mt hiff.mpr hstop),
      Bool.not_false, Bool.true_or, Bool.and_true]

/-- What is passed on a second time. -/
theorem carries_inheritAce (isDir : Bool) (ace : Ace) :
    carries isDir (inheritAce ace) = (!noPropagate ace && carries isDir ace) := by
  have hmask : ∀ mask flag : Nat, ace.flags &&& mask &&& flag = ace.flags &&& (mask &&& flag) :=
    fun mask flag => Nat.and_assoc ..
  unfold carries noPropagate inheritAce
  dsimp only
  by_cases hstop : ace.flags &&& nyfsAceFlagNoPropagate ≠ 0
  · rw [if_pos hstop, decide_eq_true hstop]
    dsimp only
    rw [hmask, Nat.and_assoc]
    cases isDir with
    | true => simp [nyfsAceFlagInheritDir]
    | false => simp [nyfsAceFlagInheritFile]
  · rw [if_neg hstop, decide_eq_false hstop, Bool.not_false, Bool.true_and]
    dsimp only
    rw [hmask]
    cases isDir with
    | true => rfl
    | false => rfl

/-- An entry that goes on below a child does so unchanged. -/
theorem inheritAce_inheritAce {ace : Ace} (h : noPropagate ace = false) :
    inheritAce (inheritAce ace) = inheritAce ace := by
  have hstop : ¬(ace.flags &&& nyfsAceFlagNoPropagate ≠ 0) := of_decide_eq_false h
  have hkeep : ¬(ace.flags &&& 0xF7 &&& nyfsAceFlagNoPropagate ≠ 0) := by
    rw [Nat.and_assoc]
    exact hstop
  unfold inheritAce
  dsimp only
  rw [if_neg hstop]
  dsimp only
  rw [if_neg hkeep, Nat.and_assoc]
  rfl

/-- Two levels of inheritance. -/
theorem inherit_twice (aces : List Ace) (isDir : Bool) {depth : Nat} (hdepth : 1 ≤ depth) :
    ((((aces.filter (getsTo true depth)).map inheritAce).filter (carries isDir)).map inheritAce) =
      (aces.filter (getsTo isDir (depth + 1))).map inheritAce := by
  have hnot : (depth + 1 == 1) = false := by
    rw [beq_eq_false_iff_ne]
    omega
  rw [List.filter_map, List.map_map, List.filter_filter]
  have hfilter : aces.filter (fun ace => (carries isDir ∘ inheritAce) ace && getsTo true depth ace) =
      aces.filter (getsTo isDir (depth + 1)) := by
    refine List.filter_congr (fun ace _ => ?_)
    rw [Function.comp_apply, carries_inheritAce, getsTo, getsTo, hnot, Bool.false_or]
    cases noPropagate ace <;> cases carries isDir ace <;> cases carries true ace <;> simp
  rw [hfilter]
  refine List.map_congr_left (fun ace hace => ?_)
  have hgets := (List.mem_filter.mp hace).2
  rw [getsTo, hnot, Bool.false_or, Bool.and_eq_true, Bool.and_eq_true, Bool.not_eq_true'] at hgets
  exact inheritAce_inheritAce hgets.2.1

/-! ## One level -/

/-- The list of an inode, as it is gathered. -/
def gatherAcl (ino : Nat) : NyfsM D (List Ace) := do
  let x ← readInode ino
  gatherAces x nyfsMaxTotalAces

theorem storedAces_fits (hx : x.Fits) : ∀ ace ∈ storedAces v x, ace.Fits := by
  intro ace hace
  rcases List.mem_append.mp hace with hace | hace
  · exact inline_fits hx ace (List.mem_of_mem_take hace)
  · split at hace
    next => cases hace
    next => exact decodeAces_fits _ _ ace hace

/-- The entries that are passed on from a list. -/
def passedList (aces : List Ace) (isDir : Bool) : List Ace :=
  (aces.filter (carries isDir)).map inheritAce

theorem passedList_fits {aces : List Ace} (h : ∀ ace ∈ aces, ace.Fits) (isDir : Bool) :
    ∀ ace ∈ passedList aces isDir, ace.Fits := by
  intro ace hace
  obtain ⟨parent, hparent, rfl⟩ := List.mem_map.mp hace
  exact inheritAce_fits (h parent (List.mem_of_mem_filter hparent))

theorem length_passedList_le (aces : List Ace) (isDir : Bool) :
    (passedList aces isDir).length ≤ aces.length := by
  rw [passedList, List.length_map]
  exact List.length_filter_le _ _

/-- Inheriting stores the entries that are passed on. -/
theorem inheritAcl_run (hmax : (storedAces v x).length ≤ nyfsMaxTotalAces) (child : Inode)
    (isDir : Bool) :
    inheritAcl x child isDir v =
      if (passedList (storedAces v x) isDir).length = 0 then (.ok child, v)
      else storeAcl child (passedList (storedAces v x) isDir) v := by
  have hle := (length_passedList_le (storedAces v x) isDir).trans hmax
  have hlist : ((((storedAces v x).take nyfsMaxTotalAces).filter (fun ace =>
      ace.flags &&& (if isDir then nyfsAceFlagInheritDir else nyfsAceFlagInheritFile) ≠ 0)).map
        inheritAce).take nyfsMaxTotalAces = passedList (storedAces v x) isDir := by
    rw [List.take_of_length_le hmax]
    exact List.take_of_length_le hle
  unfold inheritAcl
  rw [Eff.bind_ok (gatherAces_eq v x), hlist]
  split
  next => rfl
  next => rfl

/-- A list that does not fit is not stored. -/
theorem storeAcl_overflow {child : Inode} {aces : List Ace}
    (h : v.blockSize < (aces.length - nyfsAclInlineCount) * 12) :
    storeAcl child aces v = (.error (.status .Noverflow), v) := by
  have hlt : ¬aces.length ≤ nyfsAclInlineCount := by
    intro hle
    rw [Nat.sub_eq_zero_of_le hle, Nat.zero_mul] at h
    exact Nat.not_lt_zero _ h
  unfold storeAcl
  rw [if_neg hlt, Eff.gets_bind_run, if_pos h]
  rfl

/-- A child without a list gets exactly the entries that are passed on. -/
theorem Sound.inheritAcl_gather (h : Sound L v nodes) (hx : x.Fits)
    (hmax : (storedAces v x).length ≤ nyfsMaxTotalAces) {child child' : Inode} (hchild : child.Fits)
    (hnone : storedAces v child = []) {isDir : Bool}
    (hrun : inheritAcl x child isDir v = (.ok child', w)) :
    (gatherAces child' nyfsMaxTotalAces w).1 = .ok (passedList (storedAces v x) isDir) := by
  rw [inheritAcl_run hmax] at hrun
  by_cases hzero : (passedList (storedAces v x) isDir).length = 0
  · rw [if_pos hzero] at hrun
    cases hrun
    rw [gatherAces_eq, hnone, List.length_eq_zero_iff.mp hzero]
    rfl
  · rw [if_neg hzero] at hrun
    obtain ⟨r, V', acl, hdoes, hstored⟩ := does_storeAcl (D := D) h.valid h.inventory.ready hchild
      (passedList_fits (storedAces_fits hx) isDir) ((length_passedList_le _ isDir).trans hmax)
    obtain ⟨v', hstore, hmounted, rfl, -⟩ := hdoes.run h.valid h.mounted rfl
    rw [hrun] at hstore
    obtain ⟨rfl, rfl⟩ := Prod.mk.inj hstore
    rcases hstored.plan with ⟨stored, hok, hacl, -, -, haces, -⟩ | ⟨e, hbad, -⟩
    · cases hok
      obtain ⟨u, hgather, -⟩ := (hacl.does_gatherAces (D := D) (V := w.view) h.valid).run h.valid
        hmounted rfl
      rw [hgather, haces]
    · cases hbad

/-! ## Any depth -/

/-- Chains of nested creations below a directory.  All but the last are directories. -/
inductive Nest (start : Volume D) (top : Nat) : (depth : Nat) → (isDir : Bool) → Volume D → Nat → Prop
  | here : Nest start top 0 true start top
  | child {depth dir ino : Nat} {w w' : Volume D} (h : Nest start top depth true w dir) (isDir : Bool)
      (name : List UInt8) (mode : Nat) {cred : Cred} (hcred : cred.Fits)
      (hmake : makeNode isDir dir name mode cred w = (.ok ino, w')) :
      Nest start top (depth + 1) isDir w' ino

theorem Inode.length_aces_le (x : Inode) (V : View) : (x.aces V).length ≤ nyfsMaxTotalAces := by
  have hmax : nyfsMaxTotalAces = 64 := rfl
  unfold Inode.aces
  dsimp only
  split
  next =>
    rw [List.length_append, length_decodeAces, List.length_take]
    omega
  next =>
    rw [List.length_take]
    omega

theorem inheritedAces_eq (x : Inode) (isDir : Bool) :
    inheritedAces V x isDir = passedList (x.aces V) isDir :=
  List.take_of_length_le ((length_passedList_le _ isDir).trans (x.length_aces_le V))

/-- The list of an inode below a directory. -/
theorem Nest.aces_eq {top depth ino : Nat} {isDir : Bool} (hsound : Sound L v nodes)
    (htop : Live L v.view top) (h : Nest v top depth isDir w ino) :
    ∃ nodes', Sound L w nodes' ∧ Live L w.view ino ∧
      (w.view.inode ino).aces w.view =
        if depth = 0 then (v.view.inode top).aces v.view
        else (((v.view.inode top).aces v.view).filter (getsTo isDir depth)).map inheritAce := by
  induction h with
  | here => exact ⟨nodes, hsound, htop, rfl⟩
  | @child depth dir ino w w' _ isDir name mode cred hcred hmake ih =>
      obtain ⟨nodes₁, hsound₁, hdir, haces₁⟩ := ih
      obtain ⟨r, V', nodes₂, hdoes, hinv, hout⟩ := hsound₁.inventory.makeNode (D := D) hsound₁.valid
        hdir isDir name mode hcred
      obtain ⟨u, hrun, hmounted, rfl, -⟩ := hdoes.run hsound₁.valid hsound₁.mounted rfl
      rw [hmake] at hrun
      obtain ⟨rfl, rfl⟩ := Prod.mk.inj hrun
      cases hout with
      | made _ _ hmade _ _ haces =>
          have hfind : (nodes₂ dir).find name = some (ino, direntType (w'.view.inode ino)) := by
            rw [hmade.parent, Function.update_self]
          have hlive := (hinv.target_of_find (hmade.kept dir hdir).live hfind).1
          refine ⟨nodes₂, ⟨hsound₁.valid, hmounted, hinv⟩, hlive, ?_⟩
          rw [haces, inheritedAces_eq, haces₁, if_neg (Nat.succ_ne_zero depth)]
          by_cases hzero : depth = 0
          · subst hzero
            rw [if_pos rfl, passedList]
            congr 1
            refine List.filter_congr (fun ace _ => ?_)
            rw [getsTo, show (0 + 1 == 1) = true from rfl, Bool.true_or, Bool.and_true]
          · rw [if_neg hzero]
            exact inherit_twice _ isDir (Nat.pos_of_ne_zero hzero)

/-- On a sound volume the list of a live inode is gathered from its record. -/
theorem Sound.gatherAcl (h : Sound L v nodes) {i : Nat} (hi : Live L v.view i) :
    (Nyfs.gatherAcl i v).1 = .ok ((v.view.inode i).aces v.view) ∧
      (v.view.inode i).aces v.view = (storedAces v (v.view.inode i)).take nyfsMaxTotalAces := by
  have hgather := (h.inventory.holds i hi).does_gatherAces (D := D) h.valid
  have hread := h.inventory.toOwned.does_readInode (D := D) h.valid hi
  have hdoes : Does L v.view (Nyfs.gatherAcl i : NyfsM D _)
      (.ok ((v.view.inode i).aces v.view)) v.view := hread.bind hgather
  obtain ⟨u, hrun, -⟩ := hdoes.run h.valid h.mounted rfl
  obtain ⟨u', hrun', -⟩ := hgather.run h.valid h.mounted rfl
  rw [gatherAces_eq] at hrun'
  exact ⟨congrArg Prod.fst hrun, (Except.ok.inj (congrArg Prod.fst hrun')).symm⟩

theorem forall₂_passedOn {aces : List Ace} (h : ∀ ace ∈ aces, ace.Fits) :
    List.Forall₂ PassedOn aces (aces.map inheritAce) := by
  rw [List.forall₂_map_right_iff, List.forall₂_same]
  exact fun ace hace => inheritAce_passedOn (h ace hace)

/-- On every volume that a run reaches a child gets the entries of its parent that carry the inherit
flag of its kind, in order, with their flags cleared; inheriting fails when they do not fit; and
below a directory an entry gets to its children, and further down when it does not have
{lit}`NO_PROPAGATE` and directories carry it. -/
theorem acl_inheritance (hsmall : p.Small) (h : Reachable anyRequest p d v) :
    (∀ (x child : Inode) (isDir : Bool), x.Fits → child.Fits →
      (storedAces v x).length ≤ nyfsMaxTotalAces → storedAces v child = [] →
      (∀ child' w, inheritAcl x child isDir v = (.ok child', w) →
        ∃ aces, (gatherAces child' nyfsMaxTotalAces w).1 = .ok aces ∧
          List.Forall₂ PassedOn ((storedAces v x).filter (carries isDir)) aces) ∧
      (v.blockSize < (((storedAces v x).filter (carries isDir)).length - nyfsAclInlineCount) * 12 →
        inheritAcl x child isDir v = (.error (.status .Noverflow), v))) ∧
    ∀ (top depth ino : Nat) (isDir : Bool) (w : Volume D), Found v top →
      (storedAces v (v.view.inode top)).length ≤ nyfsMaxTotalAces →
      Nest v top (depth + 1) isDir w ino →
      ∃ aces, (gatherAcl ino w).1 = .ok aces ∧
        List.Forall₂ PassedOn
          ((storedAces v (v.view.inode top)).filter (getsTo isDir (depth + 1))) aces := by
  obtain ⟨nodes, hsound⟩ := h.inventory hsmall
  refine ⟨fun x child isDir hx hchild hmax hnone => ⟨fun child' w hrun => ?_, fun hbig => ?_⟩, ?_⟩
  · refine ⟨_, hsound.inheritAcl_gather hx hmax hchild hnone hrun, forall₂_passedOn ?_⟩
    exact fun ace hace => storedAces_fits hx ace (List.mem_of_mem_filter hace)
  · have hlength : (passedList (storedAces v x) isDir).length =
        ((storedAces v x).filter (carries isDir)).length := List.length_map _
    rw [← hlength] at hbig
    have hne : (passedList (storedAces v x) isDir).length ≠ 0 := by
      intro hzero
      rw [hzero, Nat.zero_sub, Nat.zero_mul] at hbig
      exact Nat.not_lt_zero _ hbig
    rw [inheritAcl_run hmax, if_neg hne, storeAcl_overflow hbig]
  · intro top depth ino isDir w hfound hmax hnest
    have htop := hfound.live hsound.valid hsound.mounted hsound.inventory
    obtain ⟨nodes', hsound', hlive, haces⟩ := hnest.aces_eq hsound htop
    have hstored := (hsound.gatherAcl htop).2
    rw [List.take_of_length_le hmax] at hstored
    rw [if_neg (Nat.succ_ne_zero depth), hstored] at haces
    refine ⟨_, (hsound'.gatherAcl hlive).1, ?_⟩
    rw [haces]
    refine forall₂_passedOn (fun ace hace => ?_)
    exact storedAces_fits (hsound.inventory.holds top htop).fits ace (List.mem_of_mem_filter hace)

/-- A directory with one entry for new files. -/
def oneEntryParent : Inode :=
  { Inode.zero with aceCount := 1, ace0 := ⟨0, 1, 0, nyfsAceFlagInheritFile, 0⟩ }

theorem acl_inheritance_small : ∃ v w : Volume MemoryDisk,
    Reachable anyRequest (tinyParams 114) ⟨fun _ => 0⟩ v ∧ (tinyParams 114).Small ∧
      (∃ child, inheritAcl oneEntryParent Inode.zero false v = (.ok child, v) ∧
        ∃ aces, (gatherAces child nyfsMaxTotalAces v).1 = .ok aces ∧
          List.Forall₂ PassedOn [oneEntryParent.ace0] aces) ∧
      ∃ ino aces, Nest v nyfsRootIno 1 false w ino ∧ (gatherAcl ino w).1 = .ok aces ∧
        List.Forall₂ PassedOn
          ((storedAces v (v.view.inode nyfsRootIno)).filter (getsTo false 1)) aces := by
  have hsmall : (tinyParams 114).Small := ⟨by decide, by decide⟩
  obtain ⟨v, nodes, hreach, hsound, hfresh⟩ := tiny_opens (D := MemoryDisk) anyRequest (Or.inl rfl)
    ⟨fun _ => 0⟩
  have hlist : storedAces v oneEntryParent = [oneEntryParent.ace0] := rfl
  have hrun : inheritAcl oneEntryParent Inode.zero false v = (.ok { Inode.zero with
      aceCount := 1, ace0 := inheritAce oneEntryParent.ace0 }, v) := by
    rw [inheritAcl_run (by rw [hlist]; decide), hlist]
    rfl
  obtain ⟨hlevel, hdepth⟩ := acl_inheritance hsmall hreach
  obtain ⟨hgather, -⟩ := hlevel oneEntryParent Inode.zero false (by decide) (by decide)
    (by rw [hlist]; decide) rfl
  obtain ⟨hstarts, -, hacl, -, hroom⟩ := hfresh.takes_name hsound.valid (by decide)
    nameOk_a
  obtain ⟨r, V', nodes', hdoes, -, hout⟩ := hsound.inventory.makeNode (D := MemoryDisk) hsound.valid
    hsound.inventory.root.1 false [97] 0o644 (show Cred.Fits ⟨0, 0⟩ from ⟨by decide, by decide⟩)
  obtain ⟨w, hmake, -⟩ := hdoes.run hsound.valid hsound.mounted rfl
  cases hout with
  | failed _ _ _ _ _ _ _ hno =>
      exact absurd ⟨hstarts, [], [], hacl false, rfl, Or.inl hroom⟩ hno
  | made ino =>
      have hnest : Nest v nyfsRootIno 1 false w ino :=
        Nest.child Nest.here false [97] 0o644 ⟨by decide, by decide⟩ hmake
      have hempty : (storedAces v (v.view.inode nyfsRootIno)).length ≤ nyfsMaxTotalAces := by
        rw [hfresh.root]
        exact Nat.zero_le _
      obtain ⟨aces, hok, hall⟩ := hdepth nyfsRootIno 0 ino false w Found.root hempty hnest
      refine ⟨v, w, hreach, hsmall, ⟨_, hrun, ?_⟩, ino, aces, hnest, hok, hall⟩
      obtain ⟨aces', hok', hall'⟩ := hgather _ v hrun
      rw [hlist] at hall'
      exact ⟨aces', hok', hall'⟩

end Nyfs
end Nyxis
