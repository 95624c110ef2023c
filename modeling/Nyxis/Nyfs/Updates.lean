import Nyxis.Nyfs.Operations

/-!
# Updates on an inventory

Removing and renaming, and the operations on a single inode: writing, truncating and setting
attributes.  As in {lit}`Nyxis.Nyfs.Operations` each theorem gives the outcome of a call on a
volume with an inventory, and the inventory that it leaves behind.

Main results:

- Theorem {lit}`Inventory.removeNode`: removing a file or an empty directory.
- Theorem {lit}`Inventory.renameNode`: moving a name, with the two ways in which it fails late.
- Theorem {lit}`Inventory.opWrite`: writing, with the blocks that a failed write keeps.
- Theorems {lit}`Inventory.opTruncate`, {lit}`Inventory.opSetattr` and {lit}`Inventory.putAcl`.
-/

namespace Nyxis
namespace Nyfs

variable {D : Type} [ReliableDevice D] {L : Layout} {V V' : View} {nodes nodes' : Nat → Node}
variable {i p : Nat} {x : Inode} {n : Node}

/-! ## Common parts -/

/-- The two answers to a lookup. -/
theorem Node.lookup_cases (n : Node) (name : List UInt8) :
    (∃ e, n.lookup name = .error (.status e) ∧ ¬(NameOk name ∧ n.find name ≠ none)) ∨
      ∃ found, n.lookup name = .ok found ∧ NameOk name ∧ n.find name = some found := by
  unfold Node.lookup
  split
  next hbad => exact Or.inl ⟨_, rfl, fun hgood => hgood.1.not_invalid hbad⟩
  next hgood =>
    cases hfind : n.find name with
    | none => exact Or.inl ⟨_, rfl, fun h => h.2 rfl⟩
    | some found => exact Or.inr ⟨found, rfl, ⟨by omega, by omega⟩, rfl⟩

/-- What a name stands for is a live inode other than the root. -/
theorem Inventory.target_of_find (h : Inventory L V nodes) (hp : Live L V p) {name : List UInt8}
    {ino type : Nat} (hfind : (nodes p).find name = some (ino, type)) :
    Live L V ino ∧ ino ≠ nyfsRootIno ∧ type = direntType (V.inode ino) ∧ (nodes p).records ≠ [] := by
  obtain ⟨r, hr, hpair⟩ := Option.map_eq_some_iff.mp hfind
  obtain ⟨rfl, rfl⟩ := Prod.mk.inj hpair
  have hmem : r ∈ (nodes p).records := List.mem_of_find?_eq_some hr
  obtain ⟨hlive, hroot, htype⟩ := h.target p hp r hmem
  exact ⟨hlive, hroot, htype, List.ne_nil_of_mem hmem⟩

/-- A pending inode that an inventory holds can be written. -/
theorem Inventory.fits_written {y : Inode} (h : Inventory L (V.writeInode p y) nodes)
    (hp : Live L V p) : y.Fits := by
  have hfits := (h.holds p ⟨hp.ne_zero, hp.lt, hp.set⟩).fits
  change (Function.update V.inode p y p).Fits at hfits
  rwa [Function.update_self] at hfits

theorem Inventory.seal_eq (h : Inventory L V nodes) (hi : Live L V i) :
    V.inode i = sealInode i (V.inode i) :=
  (h.sealed i hi).sealInode_eq.symm

/-! ## Removing -/

/-- What a removal comes to: nothing, or the inode goes with its name. -/
inductive RemoveOutcome (L : Layout) (V : View) (nodes : Nat → Node) (p : Nat) (name : List UInt8)
    (V' : View) (nodes' : Nat → Node) : Except Stop Unit → Prop
  | failed (e : Nstatus) (hview : V' = V) (hnodes : nodes' = nodes) :
      RemoveOutcome L V nodes p name V' nodes' (.error (.status e))
  | removed (t type : Nat) (hfind : (nodes p).find name = some (t, type)) (ht : Live L V t)
      (hbit : V'.inodeBit = Function.update V.inodeBit t false)
      (hkept : ∀ j, Live L V j → j ≠ t → Kept L V nodes V' nodes' j)
      (hparent : (nodes' p).find = Function.update (nodes p).find name none)
      (hothers : ∀ j, j ≠ p → (nodes' j).find = (nodes j).find)
      (htables : ∀ j, (nodes' j).table = (nodes j).table)
      (hfreed : ∀ b, V'.blockBit b = (V.blockBit b &&
        !decide (b ∈ chainBlocks (nodes t).table ++ chainBlocks (nodes t).data)))
      (hempty : (nodes t).records = []) :
      RemoveOutcome L V nodes p name V' nodes' (.ok ())

/-- A removal that passes its checks. -/
structure RemoveStarts (V : View) (nodes : Nat → Node) (p : Nat) (name : List UInt8) (cred : Cred)
    (expectDir : Option Bool) (t type : Nat) : Prop where
  dir : (V.inode p).type = nyfsInoTypeDir
  grants : Grants V (V.inode p) cred nyfsAceDeleteChild
  nameOk : NameOk name
  find : (nodes p).find name = some (t, type)
  isDir : expectDir = some true → (V.inode t).type = nyfsInoTypeDir
  isFile : expectDir = some false → (V.inode t).type ≠ nyfsInoTypeDir
  empty : ¬((V.inode t).type = nyfsInoTypeDir ∧ 0 < (V.inode t).dirEntryCount)

/-- What may be removed has no records. -/
theorem Node.Holds.records_eq_nil (h : n.Holds L V x)
    (hbusy : ¬(x.type = nyfsInoTypeDir ∧ 0 < x.dirEntryCount)) : n.records = [] := by
  rcases h.type with htype | htype
  · exact (h.file htype).2.2
  · have hcount := (h.dir htype).2
    rw [← List.length_eq_zero_iff, ← hcount]
    exact Nat.eq_zero_of_not_pos (fun hpos => hbusy ⟨htype, hpos⟩)

/-- The end of a removal. -/
theorem Inventory.removeFound (hL : L.Valid) (h : Inventory L V nodes) (hp : Live L V p)
    (hptype : (V.inode p).type = nyfsInoTypeDir) {name : List UInt8} {t type : Nat}
    (hfind : (nodes p).find name = some (t, type))
    (hbusy : ¬((V.inode t).type = nyfsInoTypeDir ∧ 0 < (V.inode t).dirEntryCount)) :
    ∃ V' nodes', Does L V (dirhashRemove (V.inode p) name >>= fun removed =>
        match removed with
        | (.error e, _) => failWith e
        | (.ok (), dir') => do
            writeInode p dir'
            Nyfs.dropLink t (V.inode t) : NyfsM D _) (.ok ()) V' ∧
      Inventory L V' nodes' ∧ RemoveOutcome L V nodes p name V' nodes' (.ok ()) ∧
      (nodes' p).free = (nodes p).free := by
  obtain ⟨ht, hroot, -, hrecords⟩ := h.target_of_find hp hfind
  have htp : t ≠ p := by
    rintro rfl
    obtain ⟨-, hcount⟩ := (h.holds t ht).dir hptype
    refine hbusy ⟨hptype, ?_⟩
    rw [hcount]
    exact List.length_pos_of_ne_nil hrecords
  obtain ⟨x', V₁, nodes₁, hdoes₁, hedit, hparent, htable, hfree, hnew⟩ :=
    Inventory.removeName (D := D) (f := V.inode) hL h hp (h.seal_eq hp) hptype hfind
  obtain ⟨hinv₂, hkept₂⟩ := hedit.settle rfl
  obtain ⟨V₂, hV₂⟩ : ∃ V₂, V₂ = V₁.writeInode p (sealInode p x') := ⟨_, rfl⟩
  have hfits := hinv₂.fits_written ((live_congr hedit.inodeBit).mpr hp)
  rw [← hV₂] at hinv₂ hkept₂
  have hbit₂ : V₂.inodeBit = V.inodeBit := by
    rw [hV₂]
    exact hedit.inodeBit
  have hinode₂ : V₂.inode t = V.inode t := by
    rw [hV₂]
    refine (Function.update_of_ne htp ..).trans ?_
    rw [hedit.inode]
  have hlive₂ : ∀ j, Live L V₂ j ↔ Live L V j := fun j => live_congr hbit₂
  obtain ⟨V₃, hdoes₃, hinv₃, hbit₃, hinode₃, hblock₃, hfreed⟩ := hinv₂.dropLink (D := D) hL
    ((hlive₂ t).mpr ht) hroot (fun j hj => hnew j ((hlive₂ j).mp hj))
  rw [hinode₂] at hdoes₃
  have hwrite : Does L V₁ (writeInode p x' : NyfsM D _) (.ok ()) V₂ := by
    rw [hV₂]
    exact does_writeInode hL hp.ne_zero hp.lt hfits
  refine ⟨V₃, nodes₁, hdoes₁.bind (hwrite.bind hdoes₃), hinv₃, RemoveOutcome.removed t type hfind ht
    ?_ ?_ hparent (fun j hj => by rw [hedit.others j hj]) ?_ ?_ ((h.holds t ht).records_eq_nil hbusy),
    hfree⟩
  · rw [hbit₃, hbit₂]
  · intro j hj hjt
    refine (hkept₂ j hj).trans ⟨(live_drop hbit₃).mpr ⟨(hlive₂ j).mpr hj, hjt⟩, ?_, rfl, rfl, ?_⟩
    · rw [hinode₃]
    · intro b _
      rw [hblock₃]
  · intro j
    by_cases hj : j = p
    · rw [hj, htable]
    · rw [hedit.others j hj]
  · intro b
    have hbits₂ : V₂.blockBit = V.blockBit := by
      rw [hV₂]
      exact hedit.blockBit.trans (mark_nil _)
    rw [hfreed, hbits₂, hedit.others t htp]

/-- A removal that passes its checks succeeds. -/
theorem Inventory.removeNode_starts (hL : L.Valid) (h : Inventory L V nodes) (hp : Live L V p)
    {name : List UInt8} {cred : Cred} {expectDir : Option Bool} {t type : Nat}
    (hstarts : RemoveStarts V nodes p name cred expectDir t type) :
    ∃ V' nodes', Does L V (Nyfs.removeNode p name cred expectDir : NyfsM D _) (.ok ()) V' ∧
      Inventory L V' nodes' ∧ RemoveOutcome L V nodes p name V' nodes' (.ok ()) ∧
      (nodes' p).free = (nodes p).free := by
  have hread := h.toOwned.does_readDirInode (D := D) hL hp
  rw [if_neg (not_not.mpr hstarts.dir)] at hread
  have haccess := (h.holds p hp).does_checkAccess (D := D) hL cred nyfsAceDeleteChild
  rw [if_pos hstarts.grants] at haccess
  have hlookup := (h.holds p hp).does_lookup (D := D) hL hstarts.dir name
  rw [Node.lookup, if_neg hstarts.nameOk.not_invalid, hstarts.find] at hlookup
  have htarget := h.toOwned.does_readInode (D := D) hL (h.target_of_find hp hstarts.find).1
  obtain ⟨V', nodes', hdoes, hinv, hout⟩ := h.removeFound (D := D) hL hp hstarts.dir hstarts.find
    hstarts.empty
  refine ⟨V', nodes', does_requireWritable.bind (hread.bind (haccess.bind (hlookup.bind
    (htarget.bind ?_)))), hinv, hout⟩
  rw [if_neg (fun hbad => hbad.2 (hstarts.isDir hbad.1)),
    if_neg (fun hbad => hstarts.isFile hbad.1 hbad.2), if_neg hstarts.empty]
  exact hdoes

/-- Removing keeps the inventory. -/
theorem Inventory.removeNode (hL : L.Valid) (h : Inventory L V nodes) (hp : Live L V p)
    (name : List UInt8) (cred : Cred) (expectDir : Option Bool) :
    ∃ r V' nodes', Does L V (Nyfs.removeNode p name cred expectDir : NyfsM D _) r V' ∧
      Inventory L V' nodes' ∧ RemoveOutcome L V nodes p name V' nodes' r := by
  have hholds := h.holds p hp
  have hearly : ∀ e : Nstatus, Does L V (Nyfs.removeNode p name cred expectDir : NyfsM D _)
      (.error (.status e)) V →
      ∃ r V' nodes', Does L V (Nyfs.removeNode p name cred expectDir : NyfsM D _) r V' ∧
        Inventory L V' nodes' ∧ RemoveOutcome L V nodes p name V' nodes' r :=
    fun e hdoes => ⟨_, V, nodes, hdoes, h, RemoveOutcome.failed e rfl rfl⟩
  have hread := h.toOwned.does_readDirInode (D := D) hL hp
  by_cases htype : (V.inode p).type = nyfsInoTypeDir
  swap
  · rw [if_pos htype] at hread
    exact hearly _ (does_requireWritable.bind hread.bind_error)
  rw [if_neg (not_not.mpr htype)] at hread
  have haccess := hholds.does_checkAccess (D := D) hL cred nyfsAceDeleteChild
  by_cases hgrants : Grants V (V.inode p) cred nyfsAceDeleteChild
  swap
  · rw [if_neg hgrants] at haccess
    exact hearly _ (does_requireWritable.bind (hread.bind haccess.bind_error))
  rw [if_pos hgrants] at haccess
  have hlookup := hholds.does_lookup (D := D) hL htype name
  rcases (nodes p).lookup_cases name with ⟨e, he, -⟩ | ⟨⟨t, type⟩, hok, hname, hfind⟩
  · rw [he] at hlookup
    exact hearly e (does_requireWritable.bind (hread.bind (haccess.bind hlookup.bind_error)))
  rw [hok] at hlookup
  have ht := (h.target_of_find hp hfind).1
  have htarget := h.toOwned.does_readInode (D := D) hL ht
  -- the checks on the target
  have hstart : ∀ {r : Except Stop Unit} {V' : View},
      Does L V (if expectDir = some true ∧ (V.inode t).type ≠ nyfsInoTypeDir then
          failWith .Nunsupported
        else if expectDir = some false ∧ (V.inode t).type = nyfsInoTypeDir then
          failWith .Nunsupported
        else if (V.inode t).type = nyfsInoTypeDir ∧ 0 < (V.inode t).dirEntryCount then
          failWith .Nbusy
        else
          dirhashRemove (V.inode p) name >>= fun removed =>
            match removed with
            | (.error e, _) => failWith e
            | (.ok (), dir') => do
                writeInode p dir'
                Nyfs.dropLink t (V.inode t) : NyfsM D Unit) r V' →
      Does L V (Nyfs.removeNode p name cred expectDir : NyfsM D _) r V' := by
    intro r V' hdoes
    exact does_requireWritable.bind (hread.bind (haccess.bind (hlookup.bind (htarget.bind hdoes))))
  by_cases hnotdir : expectDir = some true ∧ (V.inode t).type ≠ nyfsInoTypeDir
  · refine hearly .Nunsupported (hstart ?_)
    rw [if_pos hnotdir]
    exact Does.fail _
  by_cases hisdir : expectDir = some false ∧ (V.inode t).type = nyfsInoTypeDir
  · refine hearly .Nunsupported (hstart ?_)
    rw [if_neg hnotdir, if_pos hisdir]
    exact Does.fail _
  by_cases hbusy : (V.inode t).type = nyfsInoTypeDir ∧ 0 < (V.inode t).dirEntryCount
  · refine hearly .Nbusy (hstart ?_)
    rw [if_neg hnotdir, if_neg hisdir, if_pos hbusy]
    exact Does.fail _
  obtain ⟨V', nodes', hdoes, hinv, hout, -⟩ := h.removeNode_starts (D := D) hL hp
    ⟨htype, hgrants, hname, hfind, fun hyes => not_not.mp (fun hno => hnotdir ⟨hyes, hno⟩),
      fun hno hyes => hisdir ⟨hno, hyes⟩, hbusy⟩
  exact ⟨_, V', nodes', hdoes, hinv, hout⟩

/-! ## Renaming -/

/-- The inodes keep their attributes and their data; the names may have changed. -/
structure Steady (L : Layout) (V : View) (nodes : Nat → Node) (V' : View) (nodes' : Nat → Node) :
    Prop where
  inodeBit : V'.inodeBit = V.inodeBit
  kept : ∀ j, Live L V j → Kept L V nodes V' nodes' j

/-- A rename that passes its checks. -/
structure RenameStarts (V : View) (nodes : Nat → Node) (o : Nat) (oldName : List UInt8) (q : Nat)
    (newName : List UInt8) (cred : Cred) (found : Nat × Nat) : Prop where
  oldType : (V.inode o).type = nyfsInoTypeDir
  newType : (V.inode q).type = nyfsInoTypeDir
  oldGrants : Grants V (V.inode o) cred nyfsAceDeleteChild
  newGrants : Grants V (V.inode q) cred nyfsAceWriteData
  oldNameOk : NameOk oldName
  find : (nodes o).find oldName = some found
  moves : ¬(o = q ∧ oldName = newName)
  notSelf : ¬(found.2 = nyfsDirentTypeDir ∧ found.1 = q)
  newNameOk : NameOk newName
  absent : (nodes q).find newName = none

/-- The names of the directories after a rename. -/
def moveFind (find : Nat → List UInt8 → Option (Nat × Nat)) (o : Nat) (oldName : List UInt8)
    (q : Nat) (newName : List UInt8) (found : Nat × Nat) : Nat → List UInt8 → Option (Nat × Nat) :=
  let cleared := Function.update find o (Function.update (find o) oldName none)
  Function.update cleared q (Function.update (cleared q) newName (some found))

theorem moveFind_self (find : Nat → List UInt8 → Option (Nat × Nat)) (o : Nat) (oldName : List UInt8)
    (q : Nat) (newName : List UInt8) (found : Nat × Nat) :
    moveFind find o oldName q newName found q newName = some found := by
  rw [moveFind, Function.update_self, Function.update_self]

/-- The old name is gone. -/
theorem moveFind_old (find : Nat → List UInt8 → Option (Nat × Nat)) {o q : Nat}
    {oldName newName : List UInt8} (found : Nat × Nat) (hne : ¬(o = q ∧ oldName = newName)) :
    moveFind find o oldName q newName found o oldName = none := by
  rw [moveFind]
  by_cases hoq : o = q
  · subst hoq
    rw [Function.update_self, Function.update_of_ne (fun heq => hne ⟨rfl, heq⟩),
      Function.update_self, Function.update_self]
  · rw [Function.update_of_ne hoq, Function.update_self, Function.update_self]

/-- The other names are as before. -/
theorem moveFind_of_ne (find : Nat → List UInt8 → Option (Nat × Nat)) {o q j : Nat}
    {oldName newName name : List UInt8} (found : Nat × Nat) (hold : ¬(j = o ∧ name = oldName))
    (hnew : ¬(j = q ∧ name = newName)) :
    moveFind find o oldName q newName found j name = find j name := by
  have hcleared : Function.update find o (Function.update (find o) oldName none) j name =
      find j name := by
    by_cases hjo : j = o
    · subst hjo
      rw [Function.update_self, Function.update_of_ne (fun heq => hold ⟨rfl, heq⟩)]
    · rw [Function.update_of_ne hjo]
  rw [moveFind]
  by_cases hjq : j = q
  · subst hjq
    rw [Function.update_self, Function.update_of_ne (fun heq => hnew ⟨rfl, heq⟩)]
    exact hcleared
  · rw [Function.update_of_ne hjq]
    exact hcleared

/-- What a rename comes to: a check fails; the names are the same; the name moves; or there is no
room for the new name, and the old one is restored, or lost when there is no room for it
either. -/
inductive RenameOutcome (L : Layout) (V : View) (nodes : Nat → Node) (o : Nat)
    (oldName : List UInt8) (q : Nat) (newName : List UInt8) (cred : Cred) (V' : View)
    (nodes' : Nat → Node) : Except Stop Unit → Prop
  | failed (e : Nstatus) (hno : ∀ found, ¬RenameStarts V nodes o oldName q newName cred found)
      (hview : V' = V) (hnodes : nodes' = nodes) :
      RenameOutcome L V nodes o oldName q newName cred V' nodes' (.error (.status e))
  | same (heq : o = q ∧ oldName = newName) (found : Nat × Nat)
      (hfind : (nodes o).find oldName = some found) (hview : V' = V) (hnodes : nodes' = nodes) :
      RenameOutcome L V nodes o oldName q newName cred V' nodes' (.ok ())
  | moved (found : Nat × Nat) (hstarts : RenameStarts V nodes o oldName q newName cred found)
      (hroom : (nodes q).HasRoom L V newName) (hsteady : Steady L V nodes V' nodes')
      (hfinds : ∀ j, (nodes' j).find =
        moveFind (fun j => (nodes j).find) o oldName q newName found j) :
      RenameOutcome L V nodes o oldName q newName cred V' nodes' (.ok ())
  | restored (found : Nat × Nat) (hstarts : RenameStarts V nodes o oldName q newName cred found)
      (hroom : ¬(nodes q).HasRoom L V newName) (hback : (nodes o).HasRoom L V oldName)
      (hsteady : Steady L V nodes V' nodes') (hfinds : ∀ j, (nodes' j).find = (nodes j).find) :
      RenameOutcome L V nodes o oldName q newName cred V' nodes' (.error (.status .NdiskFull))
  | lost (found : Nat × Nat) (hstarts : RenameStarts V nodes o oldName q newName cred found)
      (hroom : ¬(nodes q).HasRoom L V newName) (hback : ¬(nodes o).HasRoom L V oldName)
      (hsteady : Steady L V nodes V' nodes')
      (hfinds : ∀ j, (nodes' j).find =
        Function.update (fun j => (nodes j).find) o
          (Function.update (nodes o).find oldName none) j) :
      RenameOutcome L V nodes o oldName q newName cred V' nodes' (.error (.status .NdiskFull))

theorem Node.HasRoom.congr {m : Node} {name : List UInt8} (htable : m.table = n.table)
    (hfree : m.free = n.free) (hbits : V'.blockBit = V.blockBit) :
    m.HasRoom L V' name ↔ n.HasRoom L V name := by
  rw [Node.HasRoom, Node.HasRoom, htable, hfree, hbits]

theorem Inode.type_of_core {y : Inode} (h : y.core = x.core) : y.type = x.type :=
  show y.core.type = x.core.type from congrArg Inode.type h

/-- The first half of the end of a rename: the old name is out, and the new one is to be
inserted. -/
structure Unnamed (L : Layout) (V : View) (nodes : Nat → Node) (o : Nat) (oldName : List UInt8)
    (found : Nat × Nat) (V₁ : View) (x₁ : Inode) (nodes₁ : Nat → Node) : Prop where
  edited : Edited L V V.inode nodes o (V.inode o) V₁ x₁ nodes₁ []
  finds : ∀ j, (nodes₁ j).find = Function.update (fun j => (nodes j).find) o
    (Function.update (nodes o).find oldName none) j
  table : ∀ j, (nodes₁ j).table = (nodes j).table ∧ (nodes₁ j).free = (nodes j).free
  unlinked : ∀ j, Live L V j → ∀ s ∈ (nodes₁ j).records, s.ino ≠ found.1

theorem Inventory.takeName (hL : L.Valid) (h : Inventory L V nodes) {o : Nat} (ho : Live L V o)
    (htype : (V.inode o).type = nyfsInoTypeDir) {oldName : List UInt8} {found : Nat × Nat}
    (hfind : (nodes o).find oldName = some found) :
    ∃ x₁ V₁ nodes₁, Does L V (dirhashRemove (V.inode o) oldName : NyfsM D _) (.ok (.ok (), x₁)) V₁ ∧
      Unnamed L V nodes o oldName found V₁ x₁ nodes₁ := by
  obtain ⟨ino, type⟩ := found
  obtain ⟨x₁, V₁, nodes₁, hdoes, hedit, hself, htable, hfree, hnew⟩ :=
    Inventory.removeName (D := D) (f := V.inode) hL h ho (h.seal_eq ho) htype hfind
  refine ⟨x₁, V₁, nodes₁, hdoes, hedit, fun j => ?_, fun j => ?_, hnew⟩
  · by_cases hj : j = o
    · rw [hj, Function.update_self, hself]
    · rw [Function.update_of_ne hj, hedit.others j hj]
  · by_cases hj : j = o
    · rw [hj]
      exact ⟨htable, hfree⟩
    · rw [hedit.others j hj]
      exact ⟨rfl, rfl⟩

/-- An inventory with pending inodes that has come from the given one. -/
structure Pending (L : Layout) (V : View) (nodes : Nat → Node) (f : Nat → Inode) (W : View)
    (nodes₁ : Nat → Node) : Prop where
  inode : W.inode = V.inode
  inodeBit : W.inodeBit = V.inodeBit
  inventory : Inventory L (W.withInodes f) nodes₁
  kept : ∀ j, Live L V j → Kept L V nodes (W.withInodes f) nodes₁ j

/-- The pending inodes are written. -/
theorem Pending.written {f : Nat → Inode} {W W' : View} {nodes₁ : Nat → Node}
    (h : Pending L V nodes f W nodes₁) (hview : W' = W.withInodes f) :
    Inventory L W' nodes₁ ∧ Steady L V nodes W' nodes₁ := by
  rw [hview]
  exact ⟨h.inventory, h.inodeBit, h.kept⟩

theorem Pending.fits {f : Nat → Inode} {W : View} {nodes₁ : Nat → Node}
    (h : Pending L V nodes f W nodes₁) (hi : Live L V i) : (f i).Fits :=
  (h.inventory.holds i (live_withInodes.mpr ((live_congr h.inodeBit).mpr hi))).fits

section Renaming

variable {o q : Nat} {oldName newName : List UInt8} {found : Nat × Nat} {V₁ W : View} {x₁ y : Inode}
variable {nodes₁ : Nat → Node}

theorem Unnamed.pending (h : Unnamed L V nodes o oldName found V₁ x₁ nodes₁) :
    Pending L V nodes (Function.update V.inode o (sealInode o x₁)) V₁ nodes₁ :=
  ⟨h.edited.inode, h.edited.inodeBit, h.edited.inventory, h.edited.kept⟩

/-- The moved inode gets a name, or there is no room for it. -/
theorem Unnamed.insert (hL : L.Valid) (hu : Unnamed L V nodes o oldName found V₁ x₁ nodes₁)
    (hW : Pending L V nodes (Function.update V.inode o (sealInode o x₁)) W nodes₁)
    (hbits : W.blockBit = V.blockBit) (hfound : Live L V found.1) (hroot : found.1 ≠ nyfsRootIno)
    (hdirent : found.2 = direntType (V.inode found.1)) (hq : Live L V q)
    (hy : Function.update V.inode o (sealInode o x₁) q = sealInode q y)
    (hytype : y.type = nyfsInoTypeDir) {name : List UInt8} (hname : NameOk name)
    (hfresh : (nodes₁ q).find name = none) :
    ∃ res y' W' nodes₂,
      Does L W (dirhashInsert y name found.1 found.2 : NyfsM D _) (.ok (res, y')) W' ∧
      Pending L V nodes (Function.update (Function.update V.inode o (sealInode o x₁)) q
        (sealInode q y')) W' nodes₂ ∧
      ((res = .ok () ∧ (nodes q).HasRoom L V name ∧
          ∀ j, (nodes₂ j).find = Function.update (fun j => (nodes₁ j).find) q
            (Function.update (nodes₁ q).find name (some found)) j) ∨
        (res = .error .NdiskFull ∧ y' = y ∧ nodes₂ = nodes₁ ∧ W'.blockBit = V.blockBit ∧
          ¬(nodes q).HasRoom L V name)) := by
  have hlive : ∀ j, Live L W j ↔ Live L V j := fun j => live_congr hW.inodeBit
  have hcore : x₁.type = (V.inode o).type := Inode.type_of_core hu.edited.core
  have htype : (Function.update V.inode o (sealInode o x₁) found.1).type =
      (V.inode found.1).type := by
    by_cases hf : found.1 = o
    · rw [hf, Function.update_self]
      exact hcore
    · rw [Function.update_of_ne hf]
  have hdirent' : found.2 =
      direntType (Function.update V.inode o (sealInode o x₁) found.1) := by
    rw [hdirent, direntType, direntType, htype]
  obtain ⟨res, y', W', nodes₂, taken, hdoes, hedit, hout⟩ := Inventory.insertName (D := D) hL
    hW.inventory ((hlive q).mpr hq) hy hytype hname hfresh ((hlive _).mpr hfound) hroot hdirent'
    (fun j hj => hu.unlinked j ((hlive j).mp hj))
  have hpend : Pending L V nodes (Function.update (Function.update V.inode o (sealInode o x₁)) q
      (sealInode q y')) W' nodes₂ :=
    ⟨hedit.inode.trans hW.inode, hedit.inodeBit.trans hW.inodeBit, hedit.inventory,
      fun j hj => (hW.kept j hj).trans (hedit.kept j ((hlive j).mpr hj))⟩
  have hroom : (nodes₁ q).HasRoom L W name ↔ (nodes q).HasRoom L V name :=
    Node.HasRoom.congr (hu.table q).1 (hu.table q).2 hbits
  refine ⟨res, y', W', nodes₂, hdoes, hpend, ?_⟩
  rcases hout with ⟨hok, hfind, hhas, -⟩ | ⟨herr, hsame, hnodes, htaken, hhas⟩
  · refine Or.inl ⟨hok, hroom.mp hhas, fun j => ?_⟩
    by_cases hj : j = q
    · rw [hj, Function.update_self, hfind]
    · rw [Function.update_of_ne hj, hedit.others j hj]
  · refine Or.inr ⟨herr, hsame, hnodes, ?_, mt hroom.mpr hhas⟩
    rw [hedit.blockBit, htaken, mark_nil, hbits]

/-- The end of a rename. -/
theorem Inventory.moveName (hL : L.Valid) (h : Inventory L V nodes) (ho : Live L V o)
    (hq : Live L V q) {cred : Cred}
    (hstarts : RenameStarts V nodes o oldName q newName cred found) :
    ∃ r V' nodes', Does L V (Nyfs.moveName o (V.inode o) oldName q (V.inode q) newName found.1
        found.2 : NyfsM D _) r V' ∧ Inventory L V' nodes' ∧
      RenameOutcome L V nodes o oldName q newName cred V' nodes' r := by
  obtain ⟨hfound, hroot, hdirent, -⟩ := h.target_of_find ho hstarts.find
  obtain ⟨x₁, V₁, nodes₁, hdoes₁, hu⟩ := h.takeName (D := D) hL ho hstarts.oldType hstarts.find
  have hbits₁ : V₁.blockBit = V.blockBit := by
    rw [hu.edited.blockBit, mark_nil]
  have hcore : x₁.type = nyfsInoTypeDir :=
    (Inode.type_of_core hu.edited.core).trans hstarts.oldType
  have hstart : ∀ {r : Except Stop Unit} {V' : View},
      Does L V₁ (dirhashInsert (if o = q then x₁ else V.inode q) newName found.1 found.2 >>=
        fun inserted =>
          match inserted with
          | (.error e, newDir₁) =>
              dirhashInsert (if o = q then newDir₁ else x₁) oldName found.1 found.2 >>=
                fun restored => do
                  ignoreStatus (writeInode o restored.2)
                  failWith e
          | (.ok (), newDir₁) => do
              writeInode o (if o = q then newDir₁ else x₁)
              if o = q then pure () else writeInode q newDir₁ : NyfsM D Unit) r V' →
      Does L V (Nyfs.moveName o (V.inode o) oldName q (V.inode q) newName found.1 found.2 :
        NyfsM D _) r V' :=
    fun hdoes => hdoes₁.bind hdoes
  have hy : Function.update V.inode o (sealInode o x₁) q =
      sealInode q (if o = q then x₁ else V.inode q) := by
    by_cases hsame : o = q
    · subst hsame
      rw [Function.update_self, if_pos rfl]
    · rw [Function.update_of_ne (Ne.symm hsame), if_neg hsame]
      exact h.seal_eq hq
  have hytype : (if o = q then x₁ else V.inode q).type = nyfsInoTypeDir := by
    split
    next => exact hcore
    next => exact hstarts.newType
  have hfresh : (nodes₁ q).find newName = none := by
    rw [hu.finds]
    by_cases hsame : q = o
    · subst hsame
      have hne : newName ≠ oldName := fun heq => hstarts.moves ⟨rfl, heq.symm⟩
      rw [Function.update_self, Function.update_of_ne hne]
      exact hstarts.absent
    · rw [Function.update_of_ne hsame]
      exact hstarts.absent
  obtain ⟨res, y', V₂, nodes₂, hdoes₂, hpend, hout⟩ := hu.insert (D := D) hL hu.pending hbits₁ hfound
    hroot hdirent hq hy hytype hstarts.newNameOk hfresh
  rcases hout with ⟨rfl, hroom, hfinds⟩ | ⟨rfl, rfl, rfl, hbits₂, hroom⟩
  · -- the name has moved
    have hmoved : ∀ j, (nodes₂ j).find =
        moveFind (fun j => (nodes j).find) o oldName q newName found j := by
      intro j
      rw [hfinds, show (fun j => (nodes₁ j).find) = _ from funext hu.finds, hu.finds q]
      rfl
    have hfits := hpend.fits hq
    rw [Function.update_self] at hfits
    have hwrite : Does L V₂ ((do
        writeInode o (if o = q then y' else x₁)
        if o = q then pure () else writeInode q y') : NyfsM D Unit) (.ok ())
        (V₂.withInodes (Function.update (Function.update V.inode o (sealInode o x₁)) q
          (sealInode q y'))) := by
      by_cases hsame : o = q
      · subst hsame
        rw [if_pos rfl, if_pos rfl, Function.update_idem, ← hpend.inode]
        exact (does_writeInode hL ho.ne_zero ho.lt hfits).bind (Does.pure ())
      · have hfits' := hpend.fits ho
        rw [Function.update_of_ne hsame, Function.update_self] at hfits'
        rw [if_neg hsame, if_neg hsame, ← hpend.inode]
        exact (does_writeInode hL ho.ne_zero ho.lt hfits').bind
          (does_writeInode hL hq.ne_zero hq.lt hfits)
    obtain ⟨hinv, hsteady⟩ := hpend.written rfl
    exact ⟨_, _, nodes₂, hstart (hdoes₂.bind hwrite), hinv,
      RenameOutcome.moved found hstarts hroom hsteady hmoved⟩
  · -- there is no room, and the old name is inserted again
    rw [← hy, Function.update_eq_self] at hpend
    have hback : (if o = q then (if o = q then x₁ else V.inode q) else x₁) = x₁ := by
      split
      next => rfl
      next => rfl
    have hfresh' : (nodes₂ o).find oldName = none := by
      rw [hu.finds, Function.update_self, Function.update_self]
    obtain ⟨res₃, y₃, V₃, nodes₃, hdoes₃, hpend₃, hout₃⟩ := hu.insert (D := D) hL hpend hbits₂ hfound
      hroot hdirent ho (Function.update_self ..) hcore hstarts.oldNameOk hfresh'
    rw [Function.update_idem] at hpend₃
    have hfits := hpend₃.fits ho
    rw [Function.update_self] at hfits
    have hwrite : Does L V₃ (ignoreStatus (writeInode o y₃) >>= fun _ => failWith .NdiskFull :
        NyfsM D Unit) (.error (.status .NdiskFull))
        (V₃.withInodes (Function.update V.inode o (sealInode o y₃))) := by
      rw [← hpend₃.inode]
      exact (does_ignoreStatus (does_writeInode hL ho.ne_zero ho.lt hfits)).bind (Does.fail _)
    have hdoes : Does L V (Nyfs.moveName o (V.inode o) oldName q (V.inode q) newName found.1
        found.2 : NyfsM D _) (.error (.status .NdiskFull))
        (V₃.withInodes (Function.update V.inode o (sealInode o y₃))) := by
      refine hstart (hdoes₂.bind ?_)
      dsimp only
      rw [hback]
      exact hdoes₃.bind hwrite
    obtain ⟨hinv, hsteady⟩ := hpend₃.written rfl
    refine ⟨_, _, nodes₃, hdoes, hinv, ?_⟩
    rcases hout₃ with ⟨-, hroom₃, hfinds₃⟩ | ⟨-, -, rfl, -, hroom₃⟩
    · refine RenameOutcome.restored found hstarts hroom hroom₃ hsteady (fun j => ?_)
      rw [hfinds₃]
      by_cases hj : j = o
      · rw [hj, Function.update_self, hu.finds, Function.update_self, Function.update_idem,
          ← hstarts.find, Function.update_eq_self]
      · rw [Function.update_of_ne hj, hu.finds, Function.update_of_ne hj]
    · exact RenameOutcome.lost found hstarts hroom hroom₃ hsteady hu.finds

/-- Renaming keeps the inventory. -/
theorem Inventory.renameNode (hL : L.Valid) (h : Inventory L V nodes) (ho : Live L V o)
    (hq : Live L V q) (oldName newName : List UInt8) (cred : Cred) :
    ∃ r V' nodes', Does L V (Nyfs.renameNode o oldName q newName cred : NyfsM D _) r V' ∧
      Inventory L V' nodes' ∧ RenameOutcome L V nodes o oldName q newName cred V' nodes' r := by
  have hearly : ∀ e : Nstatus, Does L V (Nyfs.renameNode o oldName q newName cred : NyfsM D _)
      (.error (.status e)) V →
      (∀ found, ¬RenameStarts V nodes o oldName q newName cred found) →
      ∃ r V' nodes', Does L V (Nyfs.renameNode o oldName q newName cred : NyfsM D _) r V' ∧
        Inventory L V' nodes' ∧ RenameOutcome L V nodes o oldName q newName cred V' nodes' r :=
    fun e hdoes hno => ⟨_, V, nodes, hdoes, h, RenameOutcome.failed e hno rfl rfl⟩
  have hread := h.toOwned.does_readDirInode (D := D) hL ho
  by_cases htype : (V.inode o).type = nyfsInoTypeDir
  swap
  · rw [if_pos htype] at hread
    exact hearly _ (does_requireWritable.bind hread.bind_error) (fun _ hs => htype hs.oldType)
  rw [if_neg (not_not.mpr htype)] at hread
  have hread' : Does L V (if o = q then pure (V.inode o) else readDirInode q : NyfsM D _)
      (if (V.inode q).type ≠ nyfsInoTypeDir then .error (.status .Nunsupported)
        else .ok (V.inode q)) V := by
    by_cases hsame : o = q
    · subst hsame
      rw [if_pos rfl, if_neg (not_not.mpr htype)]
      exact Does.pure _
    · rw [if_neg hsame]
      exact h.toOwned.does_readDirInode hL hq
  by_cases htype' : (V.inode q).type = nyfsInoTypeDir
  swap
  · rw [if_pos htype'] at hread'
    exact hearly _ (does_requireWritable.bind (hread.bind hread'.bind_error))
      (fun _ hs => htype' hs.newType)
  rw [if_neg (not_not.mpr htype')] at hread'
  have haccess := (h.holds o ho).does_checkAccess (D := D) hL cred nyfsAceDeleteChild
  by_cases hgrants : Grants V (V.inode o) cred nyfsAceDeleteChild
  swap
  · rw [if_neg hgrants] at haccess
    exact hearly _ (does_requireWritable.bind (hread.bind (hread'.bind haccess.bind_error)))
      (fun _ hs => hgrants hs.oldGrants)
  rw [if_pos hgrants] at haccess
  have haccess' := (h.holds q hq).does_checkAccess (D := D) hL cred nyfsAceWriteData
  by_cases hgrants' : Grants V (V.inode q) cred nyfsAceWriteData
  swap
  · rw [if_neg hgrants'] at haccess'
    exact hearly _ (does_requireWritable.bind (hread.bind (hread'.bind (haccess.bind
      haccess'.bind_error)))) (fun _ hs => hgrants' hs.newGrants)
  rw [if_pos hgrants'] at haccess'
  have hlookup := (h.holds o ho).does_lookup (D := D) hL htype oldName
  rcases (nodes o).lookup_cases oldName with ⟨e, he, hno⟩ | ⟨⟨ino, type⟩, hok, hname, hfind⟩
  · rw [he] at hlookup
    refine hearly e (does_requireWritable.bind (hread.bind (hread'.bind (haccess.bind
      (haccess'.bind hlookup.bind_error))))) (fun _ hs => hno ⟨hs.oldNameOk, ?_⟩)
    rw [hs.find]
    exact Option.some_ne_none _
  rw [hok] at hlookup
  have hstart : ∀ {r : Except Stop Unit} {V' : View},
      Does L V (if o = q ∧ oldName = newName then pure ()
        else if type = nyfsDirentTypeDir ∧ ino = q then failWith .NinvalidArg
        else requireAbsent (V.inode q) newName >>= fun _ =>
          Nyfs.moveName o (V.inode o) oldName q (V.inode q) newName ino type : NyfsM D Unit) r V' →
      Does L V (Nyfs.renameNode o oldName q newName cred : NyfsM D _) r V' := by
    intro r V' hdoes
    exact does_requireWritable.bind (hread.bind (hread'.bind (haccess.bind (haccess'.bind
      (hlookup.bind hdoes)))))
  by_cases hsame : o = q ∧ oldName = newName
  · rw [if_pos hsame] at hstart
    exact ⟨_, V, nodes, hstart (Does.pure ()), h, RenameOutcome.same hsame _ hfind rfl rfl⟩
  rw [if_neg hsame] at hstart
  by_cases hself : type = nyfsDirentTypeDir ∧ ino = q
  · rw [if_pos hself] at hstart
    refine hearly _ (hstart (Does.fail _)) (fun found hs => ?_)
    have hpair := hs.find
    rw [hfind] at hpair
    cases hpair
    exact hs.notSelf hself
  rw [if_neg hself] at hstart
  have habsent := (h.holds q hq).does_requireAbsent (D := D) hL htype' newName
  rcases (nodes q).absent_cases newName with ⟨e, he⟩ | ⟨hok', hname', hfree⟩
  · rw [he] at habsent
    refine hearly e (hstart habsent.bind_error) (fun _ hs => ?_)
    rw [Node.absent, if_neg hs.newNameOk.not_invalid, hs.absent] at he
    cases he
  rw [hok'] at habsent
  obtain ⟨r, V', nodes', hdoes, hinv, hout⟩ := h.moveName (D := D) hL ho hq
    (⟨htype, htype', hgrants, hgrants', hname, hfind, hsame, hself, hname', hfree⟩ :
      RenameStarts V nodes o oldName q newName cred (ino, type))
  exact ⟨r, V', nodes', hstart (habsent.bind hdoes), hinv, hout⟩

end Renaming

/-! ## Changing one inode -/

/-- Nothing but one inode has changed; it has kept its names. -/
structure Touches (L : Layout) (V : View) (nodes : Nat → Node) (i : Nat) (V' : View)
    (nodes' : Nat → Node) : Prop where
  inodeBit : V'.inodeBit = V.inodeBit
  others : ∀ j, Live L V j → j ≠ i → Kept L V nodes V' nodes' j
  finds : ∀ j, (nodes' j).find = (nodes j).find
  tables : ∀ j, (nodes' j).table = (nodes j).table

theorem Touches.refl : Touches L V nodes i V nodes :=
  ⟨rfl, fun _ hj _ => Kept.refl hj, fun _ => rfl, fun _ => rfl⟩

/-- An inode is written with a changed node that has kept its records. -/
theorem Inventory.rewrite (h : Inventory L V nodes) (hi : Live L V i) {taken touched : List Nat}
    (htakes : Takes L V V' taken touched) (hsub : n.blocks ⊆ taken ++ (nodes i).blocks)
    (hnodup : n.blocks.Nodup) (htouch : touched ⊆ n.blocks) (hsealed : x.Sealed i)
    (hx : n.Holds L V' x) (htype : x.type = (V.inode i).type)
    (hbuckets : n.buckets = (nodes i).buckets) (htable : n.table = (nodes i).table) :
    Inventory L (V'.writeInode i x) (Function.update nodes i n) ∧
      Touches L V nodes i (V'.writeInode i x) (Function.update nodes i n) := by
  have hothers : ∀ j, Live L V j → j ≠ i → ∀ b ∈ (nodes j).blocks,
      V'.blockBit b = true ∧ V'.block b = V.block b ∧ b ∉ n.blocks :=
    fun j hj hne b hb => h.toOwned.others htakes hsub htouch hj (h.apart j i hj hi hne) hb
  have hset : ∀ b ∈ n.blocks, V'.blockBit b = true := by
    intro b hb
    rcases List.mem_append.mp (hsub hb) with hb | hb
    · exact htakes.blockBit_of_mem hb
    · exact htakes.blockBit_of_set (h.set i hi b hb)
  have hinode : (V'.writeInode i x).inode = Function.update V.inode i x := by
    change Function.update V'.inode i x = _
    rw [htakes.inode]
  have hfinds : ∀ j, (Function.update nodes i n j).buckets = (nodes j).buckets := by
    intro j
    by_cases hj : j = i
    · rw [hj, Function.update_self, hbuckets]
    · rw [Function.update_of_ne hj]
  refine ⟨⟨?_, ?_⟩, htakes.inodeBit, ?_, ?_, ?_⟩
  · refine h.toOwned.put (htakes.ready.writeInode i x) hi.ne_zero hi.lt ?_ hinode hothers hset hnodup
      hsealed (hx.congr (fun _ _ => rfl))
    change V'.inodeBit = _
    rw [htakes.inodeBit, ← hi.set, Function.update_eq_self]
  · refine h.toNamed.congr htakes.inodeBit (fun j _ => ?_) (fun j _ => ?_)
    · rw [hinode]
      by_cases hj : j = i
      · rw [hj, Function.update_self, htype]
      · rw [Function.update_of_ne hj]
    · rw [Node.records, Node.records, hfinds j]
      exact List.Subset.refl _
  · intro j hj hne
    refine ⟨⟨hj.ne_zero, hj.lt, ?_⟩, ?_, ?_, ?_, fun b hb => ?_⟩
    · change V'.inodeBit j = true
      rw [htakes.inodeBit]
      exact hj.set
    · rw [hinode, Function.update_of_ne hne]
    · rw [Function.update_of_ne hne]
    · rw [Function.update_of_ne hne]
    · exact (hothers j hj hne b (List.mem_append_left _ hb)).2.1
  · intro j
    unfold Node.find
    rw [hfinds j]
  · intro j
    by_cases hj : j = i
    · rw [hj, Function.update_self, htable]
    · rw [Function.update_of_ne hj]

/-- The blocks of a node whose data stream has grown. -/
theorem Node.blocks_grown {segs' : List Segment} {taken : List Nat}
    (hperm : (chainBlocks segs').Perm (taken ++ chainBlocks n.data)) :
    ({ n with data := segs' } : Node).blocks.Perm (taken ++ n.blocks) := by
  have hacl := hperm.append_right n.acl
  have htable := hacl.append_right (chainBlocks n.table)
  simpa only [Node.blocks, Node.body, List.append_assoc] using htable

/-- The data stream of an inode has grown, and its root and size are written. -/
theorem Inventory.redata (hL : L.Valid) (h : Inventory L V nodes) (hi : Live L V i)
    {segs' : List Segment} {taken : List Nat} {root size : Nat}
    (htakes : Takes L V V' taken (chainBlocks segs'))
    (hperm : (chainBlocks segs').Perm (taken ++ chainBlocks (nodes i).data))
    (hstream : Stream L V' root segs') (hsize : size < 2 ^ 64) :
    ({ V.inode i with dataExtentRoot := root, size := size } : Inode).Fits ∧
    Inventory L (V'.writeInode i (sealInode i
        { V.inode i with dataExtentRoot := root, size := size }))
      (Function.update nodes i { nodes i with data := segs' }) ∧
    Touches L V nodes i (V'.writeInode i (sealInode i
        { V.inode i with dataExtentRoot := root, size := size }))
      (Function.update nodes i { nodes i with data := segs' }) := by
  have hold := h.holds i hi
  have hblocks := Node.blocks_grown (n := nodes i) hperm
  obtain ⟨-, hnodup⟩ := htakes.node_blocks (h.set i hi) (h.nodup i hi) hblocks
  have hroot := hstream.chain.root_lt hL
  have hilt : i < 2 ^ 64 := by
    have := hi.lt
    have := hL.inodeCount_lt
    omega
  have hfits : ({ V.inode i with dataExtentRoot := root, size := size } : Inode).Fits := by
    have hx := hold.fits
    rw [Inode.fits_iff] at hx ⊢
    obtain ⟨hhead, hace, h1, h2, h3, -, -, hrest⟩ := hx
    exact ⟨hhead, hace, h1, h2, h3, hsize, hroot, hrest⟩
  have htable : ∀ b ∈ chainBlocks (nodes i).table, V'.block b = V.block b := by
    intro b hb
    refine htakes.block b (fun hmem => ?_)
    exact (List.nodup_append.mp hnodup).2.2 b (List.mem_append_left _ hmem) b hb rfl
  have hholds : ({ nodes i with data := segs' } : Node).Holds L V' (sealInode i
      { V.inode i with dataExtentRoot := root, size := size }) := {
    fits := hfits.sealInode hilt
    linkCount := hold.linkCount
    acl := ⟨hold.acl.block, hold.acl.fits⟩
    data := hstream
    type := hold.type
    file := hold.file
    dir := fun hdir => by
      obtain ⟨hd, hcount⟩ := hold.dir hdir
      exact ⟨hd.congr htable, hcount⟩ }
  obtain ⟨hinv, htouches⟩ := h.rewrite hi htakes hblocks.subset hnodup
    (fun b hb => List.mem_append_left _ (List.mem_append_left _ hb)) (sealInode_sealed i _) hholds
    rfl rfl rfl
  exact ⟨hfits, hinv, htouches⟩

/-! ## Writing -/

/-- What a write to an inode comes to.  Everything is written; or the disk is full, after some
blocks have been taken when there was room for the first one; or the end of the range wraps
around, and the write stops at the end of the stream. -/
inductive FileWrite (L : Layout) (V : View) (nodes : Nat → Node) (i off : Nat) (bytes : List UInt8)
    (V' : View) (nodes' : Nat → Node) : Except Stop Nat → Prop
  | written (ds : List (Nat × List Nat)) (root : Nat)
      (hplan : planMany L (if bytes = [] then 0 else growthNeed L (nodes i).data off bytes.length)
        V.blockBit (tailOf (nodes i).data) = some ds)
      (hdata : dataBlocks (nodes' i).data = dataBlocks (nodes i).data ++ ds.map Prod.fst)
      (hinode : V'.inode i = sealInode i { V.inode i with
        dataExtentRoot := root, size := max (V.inode i).size ((off + bytes.length) % 2 ^ 64) })
      (hbits : V'.blockBit = mark V.blockBit (planned ds))
      (hstream : streamAt L V' (dataBlocks (nodes' i).data) =
        splice (streamAt L V (dataBlocks (nodes' i).data)) off bytes)
      (hle : bytes ≠ [] → off + bytes.length ≤ capacity L (nodes' i).data)
      (hperm : (chainBlocks (nodes' i).data).Perm (planned ds ++ chainBlocks (nodes i).data))
      (hacl : (nodes' i).acl = (nodes i).acl) :
      FileWrite L V nodes i off bytes V' nodes' (.ok bytes.length)
  | full (taken : List Nat) (hne : bytes ≠ [])
      (hplan : planMany L (growthNeed L (nodes i).data off bytes.length) V.blockBit
        (tailOf (nodes i).data) = none)
      (htaken : taken = [] ↔ planOne L V.blockBit (tailOf (nodes i).data) = none)
      (hsame : taken = [] → V' = V ∧ nodes' = nodes) (hinode : V'.inode = V.inode)
      (hbits : V'.blockBit = mark V.blockBit taken) (hfresh : ∀ b ∈ taken, V.blockBit b = false)
      (hgrown : dataBlocks (nodes i).data <+: dataBlocks (nodes' i).data)
      (hstream : ∀ o, o < capacity L (nodes i).data →
        streamAt L V' (dataBlocks (nodes i).data) o = streamAt L V (dataBlocks (nodes i).data) o) :
      FileWrite L V nodes i off bytes V' nodes' (.error (.status .NdiskFull))
  | wrapped (ds : List (Nat × List Nat)) (hne : bytes ≠ [])
      (hplan : planMany L (growthNeed L (nodes i).data off bytes.length) V.blockBit
        (tailOf (nodes i).data) = some ds)
      (hwrap : 2 ^ 64 ≤ off + bytes.length + L.blockSize - 1)
      (hlt : capacity L (nodes i).data + ds.length * L.blockSize < off + bytes.length)
      (hinode : V'.inode = V.inode) (hbits : V'.blockBit = mark V.blockBit (planned ds))
      (hfresh : ∀ b ∈ planned ds, V.blockBit b = false)
      (hgrown : dataBlocks (nodes i).data <+: dataBlocks (nodes' i).data)
      (hkept : ds = [] → dataBlocks (nodes' i).data = dataBlocks (nodes i).data)
      (hstream : ∀ o, o < capacity L (nodes i).data →
        streamAt L V' (dataBlocks (nodes i).data) o =
          splice (streamAt L V (dataBlocks (nodes i).data)) off bytes o) :
      FileWrite L V nodes i off bytes V' nodes' (.error (.status .NnotFound))

/-- A failed write has changed the stream in place, or has left blocks without an owner. -/
theorem Inventory.growInPlace (hL : L.Valid) (h : Inventory L V nodes) (hi : Live L V i)
    {root' : Nat} {segs' : List Segment} {taken : List Nat}
    (hlong : Lengthens L V (V.inode i).dataExtentRoot (nodes i).data V' root' segs' taken
      (chainBlocks segs')) :
    ∃ nodes', Inventory L V' nodes' ∧ Touches L V nodes i V' nodes' ∧
      dataBlocks (nodes i).data <+: dataBlocks (nodes' i).data ∧
      (taken = [] → dataBlocks (nodes' i).data = dataBlocks (nodes i).data) := by
  by_cases hnil : (nodes i).data = []
  · have hperm := hlong.perm
    rw [hnil, show chainBlocks [] = [] from rfl, List.append_nil] at hperm
    obtain ⟨hinv, hsame⟩ := h.leak (hlong.takes.mono hperm.subset)
    exact ⟨nodes, hinv, ⟨hsame.inodeBit, fun j hj _ => hsame.kept j hj, fun _ => rfl, fun _ => rfl⟩,
      List.prefix_rfl, fun _ => rfl⟩
  · have hold := h.holds i hi
    have hsize : (V.inode i).size < 2 ^ 64 := by
      have hfits := hold.fits
      rw [Inode.fits_iff] at hfits
      exact hfits.2.2.2.2.2.1
    have hstream : Stream L V' (V.inode i).dataExtentRoot segs' := by
      rw [← hlong.root_eq hnil]
      exact hlong.stream
    obtain ⟨-, hinv, htouches⟩ := h.redata hL hi hlong.takes hlong.perm hstream hsize
    have hview : V'.writeInode i (sealInode i { V.inode i with
        dataExtentRoot := (V.inode i).dataExtentRoot, size := (V.inode i).size }) = V' := by
      have hself : sealInode i { V.inode i with
          dataExtentRoot := (V.inode i).dataExtentRoot, size := (V.inode i).size } = V'.inode i := by
        rw [hlong.takes.inode]
        exact (h.sealed i hi).sealInode_eq
      rw [hself]
      unfold View.writeInode
      rw [Function.update_eq_self]
    rw [hview] at hinv htouches
    refine ⟨_, hinv, htouches, ?_, ?_⟩
    · rw [Function.update_self]
      exact hlong.datas
    · intro htaken
      rw [Function.update_self]
      refine (hlong.datas.eq_of_length_le ?_).symm
      have hlists := hlong.lists.length_le
      have hlen := hlong.perm.length_eq
      rw [htaken, List.nil_append, chainBlocks, chainBlocks, List.length_append,
        List.length_append] at hlen
      omega

theorem splice_take {A : Type} (f : Nat → A) {off k o : Nat} (bytes : List A) (h : o < off + k) :
    splice f off (bytes.take k) o = splice f off bytes o := by
  unfold splice
  split
  next => rfl
  next hlo =>
    rw [List.getD_eq_getElem?_getD, List.getD_eq_getElem?_getD, List.getElem?_take_of_lt (by omega)]

/-- A splice of a longer stream, seen on the shorter one. -/
theorem streamAt_of_prefix {blocks blocks' : List Nat} (hfront : blocks <+: blocks') {off k : Nat}
    {bytes : List UInt8}
    (hstream : streamAt L V' blocks' = splice (streamAt L V blocks') off (bytes.take k)) {o : Nat}
    (ho : o < blocks.length * L.blockSize) :
    streamAt L V' blocks o = splice (streamAt L V blocks) off (bytes.take k) o := by
  obtain ⟨more, rfl⟩ := hfront
  have hat := congrFun hstream o
  rw [streamAt_append_left V' more ho] at hat
  rw [hat]
  unfold splice
  rw [streamAt_append_left V more ho]

/-- Writing keeps the inventory. -/
theorem Inventory.inodeWrite (hL : L.Valid) (h : Inventory L V nodes) (hi : Live L V i) (off : Nat)
    (bytes : List UInt8) :
    ∃ r V' nodes', Does L V (Nyfs.inodeWrite i (V.inode i) off bytes : NyfsM D _) r V' ∧
      Inventory L V' nodes' ∧ Touches L V nodes i V' nodes' ∧
      (∀ j, j ≠ i → V'.inode j = V.inode j) ∧ FileWrite L V nodes i off bytes V' nodes' r := by
  have hold := h.holds i hi
  have hset : ∀ b ∈ chainBlocks (nodes i).data, V.blockBit b = true :=
    fun b hb => h.set i hi b (List.mem_append_left _ (List.mem_append_left _ hb))
  obtain ⟨res, root', segs', V₁, taken, k, hdoes, hlong, hstream, hout⟩ :=
    hold.data.writeAt (D := D) hL h.ready hset off bytes
  have hfresh : ∀ b ∈ taken, V.blockBit b = false := fun b hb => (hlong.takes.fresh b hb).2
  have hrestrict : ∀ o, o < capacity L (nodes i).data →
      streamAt L V₁ (dataBlocks (nodes i).data) o =
        splice (streamAt L V (dataBlocks (nodes i).data)) off (bytes.take k) o :=
    fun o ho => streamAt_of_prefix hlong.datas hstream ho
  cases hout with
  | written ds hplan hdata htaken hall hle =>
      have hsize : max (V.inode i).size ((off + bytes.length) % 2 ^ 64) < 2 ^ 64 := by
        have hfits := hold.fits
        rw [Inode.fits_iff] at hfits
        exact max_lt hfits.2.2.2.2.2.1 (Nat.mod_lt _ (by decide))
      obtain ⟨hfits, hinv, htouches⟩ := h.redata hL hi hlong.takes hlong.perm hlong.stream hsize
      have hilt : i < 2 ^ 64 := by
        have := hi.lt
        have := hL.inodeCount_lt
        omega
      refine ⟨.ok bytes.length, _, _, hdoes.bind ((does_writeInode hL hi.ne_zero hi.lt
        (hfits.sealInode hilt)).bind (Does.pure _)), hinv, htouches, fun j hj => ?_,
        FileWrite.written ds root' hplan ?_ (Function.update_self ..) ?_ ?_ ?_ ?_ ?_⟩
      · refine (Function.update_of_ne hj ..).trans ?_
        rw [hlong.takes.inode]
      · rw [Function.update_self]
        exact hdata
      · rw [← htaken]
        exact hlong.takes.mark_eq
      · rw [Function.update_self, ← hall]
        exact hstream
      · rw [Function.update_self]
        exact hle
      · rw [Function.update_self, ← htaken]
        exact hlong.perm
      · rw [Function.update_self]
  | full hne hplan hk hsame htaken =>
      by_cases hone : planOne L V.blockBit (tailOf (nodes i).data) = none
      · obtain ⟨rfl, -, -⟩ := hsame hone
        exact ⟨_, V₁, nodes, hdoes.bind (Does.fail _), h, Touches.refl, fun _ _ => rfl,
          FileWrite.full [] hne hplan ⟨fun _ => hone, fun _ => rfl⟩ (fun _ => ⟨rfl, rfl⟩) rfl
            (mark_nil _).symm (fun b hb => by cases hb) List.prefix_rfl (fun _ _ => rfl)⟩
      · obtain ⟨nodes', hinv, htouches, hgrown, -⟩ := h.growInPlace hL hi hlong
        refine ⟨_, V₁, nodes', hdoes.bind (Does.fail _), hinv, htouches,
          fun j _ => by rw [hlong.takes.inode], FileWrite.full taken hne hplan ⟨fun hnil => absurd hnil (htaken hone), fun hno => absurd hno hone⟩
            (fun hnil => absurd hnil (htaken hone)) hlong.takes.inode hlong.takes.mark_eq hfresh hgrown
            (fun o ho => ?_)⟩
        rw [hrestrict o ho, hk, List.take_zero, splice_nil]
  | wrapped ds hne hplan hdata htaken hwrap hlt hk =>
      obtain ⟨nodes', hinv, htouches, hgrown, hkept⟩ := h.growInPlace hL hi hlong
      have hcap : capacity L segs' = capacity L (nodes i).data + ds.length * L.blockSize := by
        rw [capacity, capacity, hdata, List.length_append, List.length_map, Nat.add_mul]
      refine ⟨_, V₁, nodes', hdoes.bind (Does.fail _), hinv, htouches,
        fun j _ => by rw [hlong.takes.inode], FileWrite.wrapped ds hne hplan hwrap ?_ hlong.takes.inode ?_ ?_ hgrown ?_ (fun o ho => ?_)⟩
      · rwa [← hcap]
      · rw [← htaken]
        exact hlong.takes.mark_eq
      · rw [← htaken]
        exact hfresh
      · intro hds
        refine hkept ?_
        rw [htaken, hds]
        rfl
      · rw [hrestrict o ho]
        exact splice_take _ _ (by omega)

/-- {lit}`nyfs_op_write` checks the access first. -/
theorem Inventory.opWrite (hL : L.Valid) (h : Inventory L V nodes) (hi : Live L V i) (cred : Cred)
    (off : Nat) (bytes : List UInt8) :
    ∃ r V' nodes', Does L V (Nyfs.opWrite i cred off bytes : NyfsM D _) r V' ∧
      Inventory L V' nodes' ∧ Touches L V nodes i V' nodes' ∧
      ((¬Grants V (V.inode i) cred nyfsAceWriteData ∧ r = .error (.status .Npermission) ∧ V' = V ∧
          nodes' = nodes) ∨
        (Grants V (V.inode i) cred nyfsAceWriteData ∧
          FileWrite L V nodes i off bytes V' nodes' r)) := by
  have hread := h.toOwned.does_readInode (D := D) hL hi
  have haccess := (h.holds i hi).does_checkAccess (D := D) hL cred nyfsAceWriteData
  by_cases hgrants : Grants V (V.inode i) cred nyfsAceWriteData
  · rw [if_pos hgrants] at haccess
    obtain ⟨r, V', nodes', hdoes, hinv, htouches, -, hout⟩ :=
      h.inodeWrite (D := D) hL hi off bytes
    exact ⟨r, V', nodes', does_requireWritable.bind (hread.bind (haccess.bind hdoes)), hinv, htouches,
      Or.inr ⟨hgrants, hout⟩⟩
  · rw [if_neg hgrants] at haccess
    exact ⟨_, V, nodes, does_requireWritable.bind (hread.bind haccess.bind_error), h, Touches.refl,
      Or.inl ⟨hgrants, rfl, rfl, rfl⟩⟩

/-! ## Truncating and attributes -/

/-- Truncating keeps the inventory: it changes the size and nothing else. -/
theorem Inventory.opTruncate (hL : L.Valid) (h : Inventory L V nodes) (hi : Live L V i) (cred : Cred)
    {size : Nat} :
    ∃ r V', Does L V (Nyfs.opTruncate i cred size : NyfsM D _) r V' ∧ Inventory L V' nodes ∧
      Touches L V nodes i V' nodes ∧
      ((∃ e, r = .error (.status e) ∧ V' = V ∧
          ¬(Grants V (V.inode i) cred nyfsAceWriteData ∧ size ≤ (V.inode i).size)) ∨
        (r = .ok () ∧ size ≤ (V.inode i).size ∧
          V' = V.writeInode i (sealInode i { V.inode i with size := size }))) := by
  have hold := h.holds i hi
  have hread := h.toOwned.does_readInode (D := D) hL hi
  have haccess := hold.does_checkAccess (D := D) hL cred nyfsAceWriteData
  by_cases hgrants : Grants V (V.inode i) cred nyfsAceWriteData
  swap
  · rw [if_neg hgrants] at haccess
    exact ⟨_, V, does_requireWritable.bind (hread.bind haccess.bind_error), h, Touches.refl,
      Or.inl ⟨_, rfl, rfl, fun hyes => hgrants hyes.1⟩⟩
  rw [if_pos hgrants] at haccess
  by_cases hlt : (V.inode i).size < size
  · refine ⟨.error (.status .Nunsupported), V, does_requireWritable.bind (hread.bind (haccess.bind ?_)),
      h, Touches.refl, Or.inl ⟨_, rfl, rfl, fun hyes => Nat.not_le.mpr hlt hyes.2⟩⟩
    rw [if_pos hlt]
    exact Does.fail _
  · have hsize : size < 2 ^ 64 := by
      have hfits := hold.fits
      rw [Inode.fits_iff] at hfits
      exact lt_of_le_of_lt (Nat.not_lt.mp hlt) hfits.2.2.2.2.2.1
    obtain ⟨hfits, hinv, htouches⟩ := h.redata hL hi
      (Takes.refl h.ready (chainBlocks (nodes i).data)) (List.Perm.refl _) hold.data hsize
    rw [show ({ nodes i with data := (nodes i).data } : Node) = nodes i from rfl,
      Function.update_eq_self] at hinv htouches
    have hilt : i < 2 ^ 64 := by
      have := hi.lt
      have := hL.inodeCount_lt
      omega
    refine ⟨.ok (), _, does_requireWritable.bind (hread.bind (haccess.bind ?_)), hinv, htouches,
      Or.inr ⟨rfl, Nat.not_lt.mp hlt, rfl⟩⟩
    rw [if_neg hlt]
    exact does_writeInode hL hi.ne_zero hi.lt (hfits.sealInode hilt)

/-- Attributes in the range of their C types. -/
structure AttrChange.Fits (a : AttrChange) : Prop where
  owner : ∀ o ∈ a.owner, o.1 < 2 ^ 32 ∧ o.2 < 2 ^ 32
  mtime : ∀ t ∈ a.mtime, t < 2 ^ 64
  atime : ∀ t ∈ a.atime, t < 2 ^ 64

theorem Option.getD_lt {a : Option Nat} {d bound : Nat} (ha : ∀ t ∈ a, t < bound) (hd : d < bound) :
    a.getD d < bound := by
  cases a with
  | none => exact hd
  | some t => exact ha t rfl

theorem AttrChange.apply_fits {a : AttrChange} (ha : a.Fits) (hx : x.Fits) : (a.apply x).Fits := by
  rw [Inode.fits_iff] at hx ⊢
  obtain ⟨⟨h1, h2, h3, h4, h5, h6⟩, hace, g1, g2, g3, g4, g5, g6, g7, g8, g9, g10, g11, g12, hrest⟩ := hx
  refine ⟨⟨h1, h2, Option.getD_lt ?_ h3, Option.getD_lt ?_ h4, Option.getD_lt ?_ h5, h6⟩, hace, g1, g2,
    g3, g4, g5, g6, g7, g8, g9, g10, Option.getD_lt ha.mtime g11, Option.getD_lt ha.atime g12, hrest⟩
  · intro t ht
    obtain ⟨mode, -, rfl⟩ := Option.mem_map.mp ht
    exact lt_of_le_of_lt Nat.and_le_right (by decide)
  · intro t ht
    obtain ⟨owner, howner, rfl⟩ := Option.mem_map.mp ht
    exact (ha.owner owner howner).1
  · intro t ht
    obtain ⟨owner, howner, rfl⟩ := Option.mem_map.mp ht
    exact (ha.owner owner howner).2

/-- Setting attributes keeps the inventory. -/
theorem Inventory.opSetattr (hL : L.Valid) (h : Inventory L V nodes) (hi : Live L V i) (cred : Cred)
    {a : AttrChange} (ha : a.Fits) :
    ∃ r V', Does L V (Nyfs.opSetattr i cred a : NyfsM D _) r V' ∧ Inventory L V' nodes ∧
      Touches L V nodes i V' nodes ∧
      ((∃ e, r = .error (.status e) ∧ V' = V ∧ cred.uid ≠ 0 ∧ cred.uid ≠ (V.inode i).uid) ∨
        (r = .ok () ∧ V' = V.writeInode i (sealInode i (a.apply (V.inode i))) ∧
          (cred.uid = 0 ∨ cred.uid = (V.inode i).uid))) := by
  have hold := h.holds i hi
  have hread := h.toOwned.does_readInode (D := D) hL hi
  by_cases hdenied : cred.uid ≠ 0 ∧ cred.uid ≠ (V.inode i).uid
  · refine ⟨.error (.status .Npermission), V, does_requireWritable.bind (hread.bind ?_), h,
      Touches.refl, Or.inl ⟨_, rfl, rfl, hdenied⟩⟩
    rw [if_pos hdenied]
    exact Does.fail _
  · have hilt : i < 2 ^ 64 := by
      have := hi.lt
      have := hL.inodeCount_lt
      omega
    have hfits := (AttrChange.apply_fits ha hold.fits).sealInode hilt
    have hholds : (nodes i).Holds L V (sealInode i (a.apply (V.inode i))) :=
      ⟨hfits, hold.linkCount, ⟨hold.acl.block, hold.acl.fits⟩, hold.data, hold.type, hold.file,
        hold.dir⟩
    obtain ⟨hinv, htouches⟩ := h.rewrite hi (Takes.refl h.ready []) (List.subset_append_right _ _)
      (h.nodup i hi) (List.nil_subset _) (sealInode_sealed i _) hholds rfl rfl
      rfl
    rw [Function.update_eq_self] at hinv htouches
    refine ⟨.ok (), _, does_requireWritable.bind (hread.bind ?_), hinv, htouches,
      Or.inr ⟨rfl, rfl, ?_⟩⟩
    swap
    · rwa [not_and_or, not_not, not_not] at hdenied
    rw [if_neg hdenied]
    exact does_writeInode hL hi.ne_zero hi.lt hfits

/-- Putting an access control list on an inode keeps the inventory. -/
theorem Inventory.putAcl (hL : L.Valid) (h : Inventory L V nodes) (hi : Live L V i)
    {aces : List Ace} (haces : ∀ ace ∈ aces, ace.Fits) (hmax : aces.length ≤ nyfsMaxTotalAces) :
    ∃ r V' nodes', Does L V (Nyfs.putAcl i aces : NyfsM D _) r V' ∧ Inventory L V' nodes' ∧
      Touches L V nodes i V' nodes' ∧ (nodes' i).data = (nodes i).data ∧
      ((∃ e, r = .error (.status e) ∧ V' = V) ∨
        (r = .ok () ∧ (V'.inode i).bare.core = (V.inode i).bare.core ∧
          ∀ b ∈ chainBlocks (nodes i).data, V'.block b = V.block b)) ∧
      ∀ plan, storePlan L V aces = some plan → r = .ok () ∧ (V'.inode i).aces V' = aces ∧
        V'.blockBit = mark V.blockBit plan ∧ (nodes' i).free = (nodes i).free := by
  have hold := h.holds i hi
  have hread := h.toOwned.does_readInode (D := D) hL hi
  obtain ⟨r, V₁, acl, hdoes, hstored⟩ := does_storeAcl (D := D) hL h.ready hold.fits haces hmax
  have htakes := hstored.takes h.ready
  rcases hstored.plan with ⟨x', rfl, hacl, hbare, hfits, hsame, hplan⟩ | ⟨e, rfl, rfl, hplan⟩
  swap
  · refine ⟨_, V₁, nodes, does_requireWritable.bind (hread.bind hdoes.bind_error), h, Touches.refl, rfl,
      Or.inl ⟨e, rfl, rfl⟩, fun plan hsome => ?_⟩
    rw [hplan] at hsome
    cases hsome
  have hilt : i < 2 ^ 64 := by
    have := hi.lt
    have := hL.inodeCount_lt
    omega
  have hblock : ∀ b ∈ (nodes i).blocks, V₁.block b = V.block b := by
    intro b hb
    refine htakes.block b (fun hmem => ?_)
    have hclear := (htakes.fresh b hmem).2
    rw [h.set i hi b hb] at hclear
    cases hclear
  have hfield : ∀ {β : Type} (g : Inode → β), (∀ y : Inode, g y.bare = g y) →
      g x' = g (V.inode i) := by
    intro β g hg
    rw [← hg x', hbare, hg]
  have hnode : ({ nodes i with acl := acl } : Node).Holds L V₁ (sealInode i x') := {
    fits := hfits.sealInode hilt
    linkCount := (hfield Inode.linkCount (fun _ => rfl)).trans hold.linkCount
    acl := ⟨hacl.block, hacl.fits⟩
    data := by
      change Stream L V₁ x'.dataExtentRoot (nodes i).data
      rw [hfield Inode.dataExtentRoot (fun _ => rfl)]
      exact hold.data.congr (fun b hb =>
        hblock b (List.mem_append_left _ (List.mem_append_left _ (List.mem_append_left _ hb))))
    type := by
      change x'.type = _ ∨ x'.type = _
      rw [hfield Inode.type (fun _ => rfl)]
      exact hold.type
    file := fun hfile => by
      change x'.type = _ at hfile
      rw [hfield Inode.type (fun _ => rfl)] at hfile
      change x'.dirHashRoot = _ ∧ _
      rw [hfield Inode.dirHashRoot (fun _ => rfl)]
      exact hold.file hfile
    dir := fun hdir => by
      change x'.type = _ at hdir
      rw [hfield Inode.type (fun _ => rfl)] at hdir
      change Dir L V₁ x'.dirHashRoot _ _ _ ∧ x'.dirEntryCount = _
      rw [hfield Inode.dirHashRoot (fun _ => rfl), hfield Inode.dirEntryCount (fun _ => rfl)]
      obtain ⟨hd, hcount⟩ := hold.dir hdir
      exact ⟨hd.congr (fun b hb => hblock b (List.mem_append_right _ hb)), hcount⟩ }
  have hold' := h.nodup i hi
  have hsub : ({ nodes i with acl := acl } : Node).blocks ⊆ acl ++ (nodes i).blocks := by
    intro b hb
    simp only [Node.blocks, Node.body, List.mem_append] at hb ⊢
    tauto
  have hnodup : ({ nodes i with acl := acl } : Node).blocks.Nodup := by
    have hapart : ∀ b ∈ acl, b ∉ (nodes i).blocks := by
      intro b hb hmem
      have hclear := (htakes.fresh b hb).2
      rw [h.set i hi b hmem] at hclear
      cases hclear
    unfold Node.blocks Node.body at hold' hapart ⊢
    dsimp only
    have hacl' := htakes.nodup
    simp only [List.nodup_append, List.mem_append] at hold' hapart ⊢
    refine ⟨⟨hold'.1.1, hacl', ?_⟩, hold'.2.1, ?_⟩
    · rintro b hb c hc rfl
      exact hapart b hc (Or.inl (Or.inl hb))
    · rintro b (hb | hb) c hc rfl
      · exact hold'.2.2 b (Or.inl hb) b hc rfl
      · exact hapart b hb (Or.inr hc)
  obtain ⟨hinv, htouches⟩ := h.rewrite hi htakes hsub hnodup
    (fun b hb => List.mem_append_left _ (List.mem_append_right _ hb)) (sealInode_sealed i x') hnode
    (hfield Inode.type (fun _ => rfl)) rfl rfl
  refine ⟨.ok (), _, _, does_requireWritable.bind (hread.bind (hdoes.bind
    (does_writeInode hL hi.ne_zero hi.lt (hfits.sealInode hilt)))), hinv, htouches, ?_,
    Or.inr ⟨rfl, ?_, ?_⟩, fun plan hsome => ⟨rfl, ?_, ?_, ?_⟩⟩
  · rw [Function.update_self]
  · change (Function.update V₁.inode i (sealInode i x') i).bare.core = _
    rw [Function.update_self]
    have hkeep : ∀ y : Inode, y.ino = i → ({ y.bare with ino := i } : Inode).core = y.bare.core := by
      rintro y rfl
      rfl
    have hstep := congrArg (fun y : Inode => ({ y with ino := i } : Inode).core) hbare
    exact hstep.trans (hkeep _ (h.sealed i hi).ino)
  · intro b hb
    exact hblock b (List.mem_append_left _ (List.mem_append_left _ hb))
  · rw [View.writeInode_self, ← hsame]
    rfl
  · rw [hplan] at hsome
    rw [← Option.some.inj hsome]
    exact htakes.mark_eq
  · rw [Function.update_self]

end Nyfs
end Nyxis
