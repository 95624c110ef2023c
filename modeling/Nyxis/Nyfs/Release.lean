import Nyxis.Nyfs.Failures

/-!
# What a removal gives back

An object is made, written and removed.  Its blocks hang off three roots, the data, the hash table
and the block of the access control list, and {lit}`nyfs_drop_link` frees the first two.  So
everything comes back exactly when the new inode has got no block for its list, that is when the
parent passes on at most as many entries as fit an inode.

Main results:

- Theorem {lit}`Holding.write`: one write keeps account of what the new inode holds.
- Theorem {lit}`Holding.run`: so does a sequence of writes.
- Theorem {lit}`Holding.leaksNothing_iff`: what is left after the removal.
- Theorem {lit}`remove_gives_back_iff`: on every volume that a run reaches.
-/

namespace Nyxis
namespace Nyfs

open Bitmap

variable {D : Type} [ReliableDevice D] {L : Layout} {V V' V'' : View}
variable {nodes nodes' nodes'' : Nat → Node} {v v' w : Volume D} {p : MkfsParams} {d : D}
variable {i parent : Nat} {name : List UInt8}

/-! ## What an inode holds -/

/-- Sequences of writes to one inode that all succeed. -/
inductive WriteRun (ino : Nat) (start : Volume D) : Volume D → Prop
  | start : WriteRun ino start start
  | step {v : Volume D} (h : WriteRun ino start v) (q : Request) {offset : Nat}
      {bytes : List UInt8} (hfits : q.Fits) (hwrites : q.Writes ino offset bytes)
      (hok : (q.exec v).1 = .ok ()) : WriteRun ino start (q.exec v).2

/-- Since the first view an inode has been made under a name, and all blocks that have been taken
are its own or in the table of the directory. -/
structure Holding (L : Layout) (V : View) (parent : Nat) (name : List UInt8) (acl : List Nat) (i : Nat)
    (V' : View) (nodes' : Nat → Node) : Prop where
  fresh : V.inodeBit i = false
  inodeBit : V'.inodeBit = Function.update V.inodeBit i true
  type : (V'.inode parent).type = nyfsInoTypeDir
  live : Live L V' parent
  self : Live L V' i
  ne : i ≠ parent
  find : ∃ type, (nodes' parent).find name = some (i, type)
  acl_eq : (nodes' i).acl = acl
  acl_fresh : ∀ b ∈ acl, V.blockBit b = false
  used : ∀ b, V'.blockBit b = true →
    V.blockBit b = true ∨ b ∈ (nodes' i).blocks ∨ b ∈ chainBlocks (nodes' parent).table

theorem aclPlan_fresh {x : Inode} {isDir : Bool} {acl : List Nat}
    (h : aclPlan L V x isDir = some acl) : ∀ b ∈ acl, V.blockBit b = false := by
  unfold aclPlan at h
  split at h
  next =>
    cases h
    nofun
  next =>
    split at h
    next => cases h
    next =>
      obtain ⟨b, hfirst, rfl⟩ := Option.map_eq_some_iff.mp h
      intro c hc
      rw [List.mem_singleton.mp hc]
      exact (firstClear_some hfirst).2.2

/-- The new inode takes no block for a list that fits it. -/
theorem aclPlan_eq_nil_iff {x : Inode} {isDir : Bool} {acl : List Nat}
    (h : aclPlan L V x isDir = some acl) :
    acl = [] ↔ (inheritedAces V x isDir).length ≤ nyfsAclInlineCount := by
  unfold aclPlan at h
  split at h
  next hle =>
    cases h
    exact ⟨fun _ => hle, fun _ => rfl⟩
  next hlt =>
    refine ⟨fun hnil => ?_, fun hle => absurd hle hlt⟩
    subst hnil
    split at h
    next => cases h
    next =>
      obtain ⟨b, -, hb⟩ := Option.map_eq_some_iff.mp h
      cases hb

/-- A creation starts the account. -/
theorem MakeOutcome.holding {isDir : Bool} {mode : Nat} {cred : Cred}
    (hinv' : Inventory L V' nodes') (hp : Live L V parent)
    (h : MakeOutcome L V nodes isDir parent name mode cred V' nodes' (.ok i)) :
    ∃ acl, Holding L V parent name acl i V' nodes' ∧
      aclPlan L V (V.inode parent) isDir = some acl := by
  cases h with
  | made _ hstarts hmade _ _ _ hacl =>
      have hclear := (firstClear_some hmade.first).2.2
      have hkept := hmade.kept parent hp
      have hfind : (nodes' parent).find name = some (i, direntType (V'.inode i)) := by
        rw [hmade.parent, Function.update_self]
      obtain ⟨grown, hbits, htable⟩ := hmade.blockBit
      refine ⟨_, ⟨hclear, hmade.inodeBit, ?_, hkept.live, (hinv'.target_of_find hkept.live hfind).1, ?_,
        ⟨_, hfind⟩, rfl, aclPlan_fresh hacl, fun b hb => ?_⟩, hacl⟩
      · exact (Inode.type_of_core hkept.core).trans hstarts.type
      · rintro rfl
        rw [hp.set] at hclear
        cases hclear
      · rw [hbits, mark, Bool.or_eq_true, decide_eq_true_iff, List.mem_append] at hb
        rcases hb with hb | hb | hb
        · exact Or.inl hb
        · exact Or.inr (Or.inl hb)
        · exact Or.inr (Or.inr (htable b hb))

/-- A write adds blocks to the inode only. -/
theorem Holding.write {acl : List Nat} {off : Nat} {bytes : List UInt8}
    (h : Holding L V parent name acl i V' nodes') (htouches : Touches L V' nodes' i V'' nodes'')
    (hout : FileWrite L V' nodes' i off bytes V'' nodes'' (.ok bytes.length)) :
    Holding L V parent name acl i V'' nodes'' := by
  generalize hr : (Except.ok bytes.length : Except Stop Nat) = r at hout
  cases hout with
  | full => cases hr
  | wrapped => cases hr
  | written ds root _ _ _ hbits _ _ hperm hacl =>
      have hkept := htouches.others parent h.live h.ne.symm
      obtain ⟨type, hfind⟩ := h.find
      refine ⟨h.fresh, htouches.inodeBit.trans h.inodeBit, ?_, hkept.live,
        (live_congr htouches.inodeBit).mpr h.self, h.ne, ⟨type, ?_⟩, hacl.trans h.acl_eq, h.acl_fresh,
        fun b hb => ?_⟩
      · exact (Inode.type_of_core hkept.core).trans h.type
      · rw [htouches.finds]
        exact hfind
      · have hblocks : ∀ c, c ∈ (nodes'' i).blocks ↔ c ∈ planned ds ∨ c ∈ (nodes' i).blocks := by
          intro c
          simp only [Node.blocks, Node.body, List.mem_append, hperm.mem_iff, hacl, htouches.tables i]
          tauto
        rw [hbits, mark, Bool.or_eq_true, decide_eq_true_iff] at hb
        rw [hblocks, htouches.tables parent]
        rcases hb with hb | hb
        · rcases h.used b hb with hold | hown | htable
          · exact Or.inl hold
          · exact Or.inr (Or.inl (Or.inr hown))
          · exact Or.inr (Or.inr htable)
        · exact Or.inr (Or.inl (Or.inl hb))

/-- A sequence of writes keeps the account. -/
theorem Holding.run {acl : List Nat} (hsound : Sound L v nodes)
    (h : Holding L V parent name acl i v.view nodes) (hrun : WriteRun i v w) :
    ∃ nodes', Sound L w nodes' ∧ Holding L V parent name acl i w.view nodes' := by
  induction hrun with
  | start => exact ⟨nodes, hsound, h⟩
  | @step u _ q offset bytes hfits hwrites hok ih =>
      obtain ⟨nodes₁, hsound₁, hholding⟩ := ih
      have hlive : ∀ j ∈ q.inodes, Live L u.view j := by
        intro j hj
        have hji : j = i := by
          rcases hwrites with ⟨cred, rfl⟩ | rfl
          · exact List.mem_singleton.mp hj
          · exact List.mem_singleton.mp hj
        rw [hji]
        exact hholding.self
      obtain ⟨r, V', nodes₂, hdoes, hinv, heffect⟩ := q.effect (D := D) hsound₁.valid
        hsound₁.inventory hfits hlive
      obtain ⟨u', hu, hmounted, rfl, -⟩ := hdoes.run hsound₁.valid hsound₁.mounted rfl
      rw [hu] at hok ⊢
      dsimp only at hok
      rw [hok] at heffect
      obtain ⟨htouches, hout⟩ := heffect.written_of_ok hwrites
      exact ⟨nodes₂, ⟨hsound₁.valid, hmounted, hinv⟩, hholding.write htouches hout⟩

/-! ## The removal -/

/-- After the removal everything has come back exactly when the inode had no block for its list. -/
theorem Holding.leaksNothing_iff {acl : List Nat} (hsound' : Sound L v' nodes')
    (h : Holding L v.view parent name acl i v'.view nodes') (hsound'' : Sound L w nodes'')
    (hout : RemoveOutcome L v'.view nodes' parent name w.view nodes'' (.ok ())) :
    LeaksNothing v w parent ↔ acl = [] := by
  cases hout with
  | removed t type hfind ht hbit hkept hparent hothers htables hfreed =>
      obtain ⟨type', hfind'⟩ := h.find
      obtain ⟨rfl, -⟩ : i = t ∧ type' = type := by
        rw [hfind] at hfind'
        cases hfind'
        exact ⟨rfl, rfl⟩
      have hinv := hsound'.inventory
      have hkeptParent := hkept parent h.live h.ne.symm
      have hdir := ((hsound''.inventory.holds parent hkeptParent.live).dir
        ((Inode.type_of_core hkeptParent.core).trans h.type)).1
      rw [htables parent] at hdir
      constructor
      · rintro ⟨-, hchain⟩
        rw [List.eq_nil_iff_forall_not_mem]
        intro b hb
        have hmem : b ∈ (nodes' i).acl := by
          rw [h.acl_eq]
          exact hb
        have hown : b ∈ (nodes' i).blocks :=
          List.mem_append_left _ (List.mem_append_right _ hmem)
        -- the block of the list is neither in the table nor in the data
        have hnot : b ∉ chainBlocks (nodes' i).table ++ chainBlocks (nodes' i).data := by
          have hnodup := hinv.nodup i ht
          rw [Node.blocks, Node.body, List.nodup_append, List.nodup_append] at hnodup
          intro hbad
          rcases List.mem_append.mp hbad with hbad | hbad
          · exact hnodup.2.2 b (List.mem_append_right _ hmem) b hbad rfl
          · exact hnodup.1.2.2 b hbad b hmem rfl
        have hset : w.view.blockBit b = true := by
          rw [hfreed, hinv.set i ht b hown, decide_eq_false hnot]
          rfl
        obtain ⟨segs, hsegs, hin⟩ := hchain b hset (h.acl_fresh b hb)
        rw [hsound''.mounted.layout] at hsegs
        obtain rfl := hdir.stream.chain.unique hsound''.valid hsegs
        exact hinv.apart i parent ht h.live h.ne hown (List.mem_append_right _ hin)
      · intro hnil
        refine ⟨?_, fun b hset hclear => ⟨(nodes' parent).table, ?_, ?_⟩⟩
        · rw [hbit, h.inodeBit, Function.update_idem, ← h.fresh, Function.update_eq_self]
        · rw [hsound''.mounted.layout]
          exact hdir.stream.chain
        · rw [hfreed, Bool.and_eq_true, Bool.not_eq_true', decide_eq_false_iff_not] at hset
          rcases h.used b hset.1 with hold | hown | htable
          · rw [hold] at hclear
            cases hclear
          · have hacl : (nodes' i).acl = [] := h.acl_eq.trans hnil
            rw [Node.blocks, Node.body, hacl, List.append_nil] at hown
            exact absurd (List.mem_append.mpr (List.mem_append.mp hown).symm) hset.2
          · exact htable

/-- The counter of the free inodes follows the bitmap. -/
theorem Sound.freeInodeCount_eq (h : Sound L v nodes) (h' : Sound L w nodes')
    (hbits : w.view.inodeBit = v.view.inodeBit) : w.sb.freeInodeCount = v.sb.freeInodeCount := by
  have hold : v.sb.freeInodeCount = clearCount v.view.inodeBit L.inodeCount :=
    h.inventory.ready.freeInodes
  have hnew : w.sb.freeInodeCount = clearCount w.view.inodeBit L.inodeCount :=
    h'.inventory.ready.freeInodes
  rw [hold, hnew, hbits]

/-- After a successful creation, successful writes to the new inode and its successful removal,
everything that has been taken is free again, but for blocks of the parent's table, exactly when
the parent passes on no more entries of its access control list than an inode holds. -/
theorem remove_gives_back_iff (hsmall : p.Small) (h : Reachable anyRequest p d v)
    (hfound : Found v parent) {isDir : Bool} {name : List UInt8} {mode : Nat} {cred cred' : Cred}
    (hcred : cred.Fits) {expectDir : Option Bool} {ino : Nat} {v₁ v₂ v₃ : Volume D}
    (hmake : makeNode isDir parent name mode cred v = (.ok ino, v₁)) (hwrites : WriteRun ino v₁ v₂)
    (hremove : removeNode parent name cred' expectDir v₂ = (.ok (), v₃)) :
    LeaksNothing v v₃ parent ∧ v₃.sb.freeInodeCount = v.sb.freeInodeCount ↔
      (inheritedAces v.view (v.view.inode parent) isDir).length ≤ nyfsAclInlineCount := by
  obtain ⟨nodes, hsound⟩ := h.inventory hsmall
  have hlive := hfound.live hsound.valid hsound.mounted hsound.inventory
  obtain ⟨r, V₁, nodes₁, hdoes₁, hinv₁, hout₁⟩ := hsound.inventory.makeNode (D := D) hsound.valid hlive
    isDir name mode hcred
  obtain ⟨w₁, hrun₁, hmounted₁, rfl, -⟩ := hdoes₁.run hsound.valid hsound.mounted rfl
  rw [hmake] at hrun₁
  obtain ⟨rfl, rfl⟩ := Prod.mk.inj hrun₁
  obtain ⟨acl, hholding₁, hplan⟩ := hout₁.holding hinv₁ hlive
  obtain ⟨nodes₂, hsound₂, hholding₂⟩ := hholding₁.run ⟨hsound.valid, hmounted₁, hinv₁⟩ hwrites
  obtain ⟨r, V₃, nodes₃, hdoes₃, hinv₃, hout₃⟩ := hsound₂.inventory.removeNode (D := D) hsound₂.valid
    hholding₂.live name cred' expectDir
  obtain ⟨w₃, hrun₃, hmounted₃, rfl, -⟩ := hdoes₃.run hsound₂.valid hsound₂.mounted rfl
  rw [hremove] at hrun₃
  obtain ⟨rfl, rfl⟩ := Prod.mk.inj hrun₃
  have hsound₃ : Sound p.layout v₃ nodes₃ := ⟨hsound.valid, hmounted₃, hinv₃⟩
  rw [← aclPlan_eq_nil_iff hplan, ← hholding₂.leaksNothing_iff hsound₂ hsound₃ hout₃]
  exact ⟨fun hback => hback.1, fun hback => ⟨hback, hsound.freeInodeCount_eq hsound₃ hback.1⟩⟩

/-- Root makes a file in the root directory and removes it. -/
theorem Sound.make_remove (h : Sound L v nodes)
    (hstarts : MakeStarts L v.view (nodes nyfsRootIno) (v.view.inode nyfsRootIno) name ⟨0, 0⟩)
    (hfits : MakeFits L v.view (nodes nyfsRootIno) (v.view.inode nyfsRootIno) name false) :
    ∃ ino v₁ v₂ nodes₁ nodes₂ acl, makeNode false nyfsRootIno name 0o644 ⟨0, 0⟩ v = (.ok ino, v₁) ∧
      removeNode nyfsRootIno name ⟨0, 0⟩ (some false) v₁ = (.ok (), v₂) ∧ Sound L v₁ nodes₁ ∧
      Holding L v.view nyfsRootIno name acl ino v₁.view nodes₁ ∧
      aclPlan L v.view (v.view.inode nyfsRootIno) false = some acl ∧ Sound L v₂ nodes₂ ∧
      RemoveOutcome L v₁.view nodes₁ nyfsRootIno name v₂.view nodes₂ (.ok ()) := by
  have hroot := h.inventory.root.1
  obtain ⟨r, V₁, nodes₁, hdoes₁, hinv₁, hout₁⟩ := h.inventory.makeNode (D := D) h.valid hroot false
    name 0o644 (show Cred.Fits ⟨0, 0⟩ from ⟨by decide, by decide⟩)
  obtain ⟨v₁, hrun₁, hmounted₁, rfl, -⟩ := hdoes₁.run h.valid h.mounted rfl
  cases r with
  | error e =>
      cases hout₁ with
      | failed _ _ _ _ _ _ _ hno => exact absurd ⟨hstarts, hfits⟩ hno
  | ok ino =>
      obtain ⟨acl, hholding, hplan⟩ := hout₁.holding hinv₁ hroot
      obtain ⟨type, hfind⟩ := hholding.find
      have hfile : (v₁.view.inode ino).type = nyfsInoTypeFile := by
        cases hout₁ with
        | made _ _ hmade => exact congrArg (fun x : Inode => x.type) hmade.attributes
      have hnotdir : (v₁.view.inode ino).type ≠ nyfsInoTypeDir := by
        rw [hfile]
        decide
      have hremoves : RemoveStarts v₁.view nodes₁ nyfsRootIno name ⟨0, 0⟩ (some false) ino type :=
        ⟨hholding.type, Or.inl rfl, hstarts.nameOk, hfind, nofun, fun _ => hnotdir,
          fun hbad => hnotdir hbad.1⟩
      obtain ⟨V₂, nodes₂, hdoes₂, hinv₂, hout₂, -⟩ := hinv₁.removeNode_starts (D := D) h.valid
        hholding.live hremoves
      obtain ⟨v₂, hrun₂, hmounted₂, rfl, -⟩ := hdoes₂.run h.valid hmounted₁ rfl
      exact ⟨ino, v₁, v₂, nodes₁, nodes₂, acl, hrun₁, hrun₂, ⟨h.valid, hmounted₁, hinv₁⟩, hholding,
        hplan, ⟨h.valid, hmounted₂, hinv₂⟩, hout₂⟩

theorem remove_gives_back_iff_small : ∃ (v v₁ v₂ : Volume MemoryDisk) (ino : Nat),
    Reachable anyRequest (tinyParams 114) ⟨fun _ => 0⟩ v ∧ (tinyParams 114).Small ∧
      makeNode false nyfsRootIno [97] 0o644 ⟨0, 0⟩ v = (.ok ino, v₁) ∧
      removeNode nyfsRootIno [97] ⟨0, 0⟩ (some false) v₁ = (.ok (), v₂) ∧
      (LeaksNothing v v₂ nyfsRootIno ∧ v₂.sb.freeInodeCount = v.sb.freeInodeCount ↔
        (inheritedAces v.view (v.view.inode nyfsRootIno) false).length ≤ nyfsAclInlineCount) := by
  have hsmall : (tinyParams 114).Small := ⟨by decide, by decide⟩
  obtain ⟨v, nodes, hreach, hsound, hfresh⟩ := tiny_opens (D := MemoryDisk) anyRequest (Or.inl rfl)
    ⟨fun _ => 0⟩
  obtain ⟨hstarts, -, hacl, -, hroom⟩ := hfresh.takes_name hsound.valid (by decide) nameOk_a
  obtain ⟨ino, v₁, v₂, -, -, -, hmake, hremove, -⟩ := hsound.make_remove hstarts
    ⟨[], [], hacl false, rfl, Or.inl hroom⟩
  exact ⟨v, v₁, v₂, ino, hreach, hsmall, hmake, hremove, remove_gives_back_iff hsmall hreach Found.root
    ⟨by decide, by decide⟩ hmake WriteRun.start hremove⟩

/-- An entry that new files inherit. -/
def inheritedEntry : Ace :=
  ⟨0, 1, 0, nyfsAceFlagInheritFile, 0⟩

/-- Five entries are put on the root directory. -/
def listRoot : Request :=
  .putAcl nyfsRootIno (List.replicate 5 inheritedEntry)

/-- A fresh volume whose root directory passes on five entries. -/
theorem tiny_listed (d : D) {name : List UInt8} (hname : NameOk name) :
    ∃ v nodes, Reachable anyRequest (tinyParams 114) d v ∧ Sound (tinyParams 114).layout v nodes ∧
      MakeStarts (tinyParams 114).layout v.view (nodes nyfsRootIno) (v.view.inode nyfsRootIno) name
        ⟨0, 0⟩ ∧
      MakeFits (tinyParams 114).layout v.view (nodes nyfsRootIno) (v.view.inode nyfsRootIno) name
        false ∧
      aclPlan (tinyParams 114).layout v.view (v.view.inode nyfsRootIno) false = some [63] := by
  obtain ⟨v, nodes, hreach, hsound, hfresh⟩ := tiny_opens anyRequest (Or.inl rfl) d
  obtain ⟨hstarts, -, -, -, hroom⟩ := hfresh.takes_name hsound.valid (by decide) hname
  have hfits : listRoot.Fits := by
    refine ⟨fun ace hace => ?_, by decide⟩
    rw [List.eq_of_mem_replicate hace, Ace.fits_iff]
    decide
  have hroot : ∀ i ∈ listRoot.inodes, Found v i := by
    intro i hi
    rw [List.mem_singleton.mp hi]
    exact Found.root
  obtain ⟨r, V', nodes', hdoes, hinv, htouches, -, hout, hput⟩ := hsound.inventory.putAcl (D := D)
    hsound.valid hsound.inventory.root.1 hfits.1 hfits.2
  obtain ⟨w, hrun, hmounted, rfl, -⟩ := hdoes.run hsound.valid hsound.mounted rfl
  have hplan : storePlan (tinyParams 114).layout v.view (List.replicate 5 inheritedEntry) =
      some [62] := by
    unfold storePlan
    rw [hfresh.bits_eq]
    decide +kernel
  obtain ⟨rfl, haces, hbits, hfree⟩ := hput [62] hplan
  have hreach' := Reachable.step hreach listRoot hfits hroot trivial
  rw [show (listRoot.exec v : _ × Volume D) = (.ok (), w) from hrun] at hreach'
  have hinherit : inheritedAces w.view (w.view.inode nyfsRootIno) false =
      List.replicate 5 inheritedEntry := by
    rw [inheritedAces, haces]
    decide
  have hacl : aclPlan (tinyParams 114).layout w.view (w.view.inode nyfsRootIno) false =
      some [63] := by
    unfold aclPlan
    rw [hinherit, hbits, hfresh.bits_eq]
    decide +kernel
  have htype : (w.view.inode nyfsRootIno).type = nyfsInoTypeDir := by
    rcases hout with ⟨e, hbad, -⟩ | ⟨-, hbare, -⟩
    · cases hbad
    · exact (congrArg (fun x : Inode => x.type) hbare).trans hstarts.type
  refine ⟨w, nodes', hreach', ⟨hsound.valid, hmounted, hinv⟩, ⟨htype, Or.inl rfl, hname, ?_, ?_⟩,
    ⟨[63], [], hacl, rfl, Or.inl ?_⟩, hacl⟩
  · rw [htouches.finds]
    exact hstarts.absent
  · rw [htouches.inodeBit]
    exact hstarts.room
  · rw [hfree, htouches.tables]
    exact hroom

/-- A file that inherits five entries is made and removed; the block of its list stays taken. -/
theorem removed_file_leaks : ∃ (v v₁ v₂ : Volume MemoryDisk) (ino : Nat),
    Reachable anyRequest (tinyParams 114) ⟨fun _ => 0⟩ v ∧
      makeNode false nyfsRootIno [97] 0o644 ⟨0, 0⟩ v = (.ok ino, v₁) ∧
      removeNode nyfsRootIno [97] ⟨0, 0⟩ (some false) v₁ = (.ok (), v₂) ∧
      ¬LeaksNothing v v₂ nyfsRootIno := by
  obtain ⟨v, nodes, hreach, hsound, hstarts, hfits, hacl⟩ := tiny_listed (D := MemoryDisk)
    ⟨fun _ => 0⟩ nameOk_a
  obtain ⟨ino, v₁, v₂, nodes₁, nodes₂, acl, hmake, hremove, hsound₁, hholding, hplan, hsound₂, hout⟩ :=
    hsound.make_remove hstarts hfits
  refine ⟨v, v₁, v₂, ino, hreach, hmake, hremove, ?_⟩
  rw [hholding.leaksNothing_iff hsound₁ hsound₂ hout]
  rw [hacl] at hplan
  cases hplan
  exact List.cons_ne_nil _ _

end Nyfs
end Nyxis
