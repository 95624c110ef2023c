import Nyxis.Nyfs.Steps

/-!
# Creating on an inventory

Each operation returns an outcome that the view decides, and leaves a volume with an
inventory again, whether it succeeds or fails half-way.  The other inodes keep their
attributes and their data.  This module has the common parts and the creation of files and
directories; {lit}`Nyxis.Nyfs.Updates` has the other operations.

Main results:

- Theorem {lit}`Inventory.makeNode`: creating a file or a directory.
-/

namespace Nyxis
namespace Nyfs

open Bytes

variable {D : Type} [ReliableDevice D] {L : Layout} {V V' : View} {nodes nodes' : Nat → Node}
variable {i p : Nat} {x : Inode} {n : Node}

/-! ## Common parts -/

theorem does_requireWritable : Does L V (requireWritable : NyfsM D _) (.ok ()) V :=
  Does.writable_bind (Does.pure ())

theorem does_giveBack {α : Type} (hL : L.Valid) (h0 : i ≠ 0) (hi : i < L.inodeCount)
    (e : Nstatus) :
    Does L V (giveBack i e : NyfsM D α) (.error (.status e)) (V.dropInode i) :=
  (does_ignoreStatus (does_freeInode hL h0 hi)).bind (Does.fail e)

theorem mark_nil (bits : Nat → Bool) : mark bits [] = bits := by
  funext b
  simp [mark]

theorem mark_mark (bits : Nat → Bool) (xs ys : List Nat) :
    mark (mark bits xs) ys = mark bits (xs ++ ys) := by
  funext b
  simp [mark, Bool.or_assoc]

theorem mark_perm {bits : Nat → Bool} {xs ys : List Nat} (h : xs.Perm ys) :
    mark bits xs = mark bits ys := by
  funext b
  rw [mark, mark, decide_eq_decide.mpr h.mem_iff]

/-- Nothing but the content of blocks that no name depends on has changed. -/
structure Same (L : Layout) (V : View) (nodes : Nat → Node) (V' : View) (nodes' : Nat → Node) :
    Prop where
  inodeBit : V'.inodeBit = V.inodeBit
  kept : ∀ j, Live L V j → Kept L V nodes V' nodes' j
  find : ∀ j, Live L V j → (nodes' j).find = (nodes j).find

theorem Same.refl : Same L V nodes V nodes :=
  ⟨rfl, fun _ hj => Kept.refl hj, fun _ _ => rfl⟩

/-- The pending inode of a changed directory is written. -/
theorem Edited.settle {f : Nat → Inode} {x' : Inode} {taken : List Nat}
    (h : Edited L V f nodes p x V' x' nodes' taken) (hf : f = V.inode) :
    Inventory L (V'.writeInode p (sealInode p x')) nodes' ∧
      ∀ j, Live L V j → Kept L V nodes (V'.writeInode p (sealInode p x')) nodes' j := by
  have hview : V'.withInodes (Function.update f p (sealInode p x')) =
      V'.writeInode p (sealInode p x') := by
    rw [hf, ← h.inode]
    rfl
  have hinventory := h.inventory
  have hkept := h.kept
  rw [hview] at hinventory hkept
  rw [hf] at hkept
  exact ⟨hinventory, hkept⟩

/-- A directory that has not changed needs no writing. -/
theorem Edited.unchanged {f : Nat → Inode} {taken : List Nat}
    (h : Edited L V f nodes p x V' x nodes' taken) (hf : f = V.inode) (hx : f p = sealInode p x) :
    Inventory L V' nodes' ∧ ∀ j, Live L V j → Kept L V nodes V' nodes' j := by
  have hview : V'.withInodes (Function.update f p (sealInode p x)) = V' := by
    rw [← hx, Function.update_eq_self, hf, ← h.inode]
    rfl
  have hinventory := h.inventory
  have hkept := h.kept
  rw [hview] at hinventory hkept
  rw [hf] at hkept
  exact ⟨hinventory, hkept⟩

/-- An inode without a name is given back; its blocks stay taken. -/
theorem Inventory.dropOrphan (hL : L.Valid) (h : Inventory L V nodes) (hi : Live L V i)
    (hroot : i ≠ nyfsRootIno) (hnew : ∀ j, Live L V j → ∀ s ∈ (nodes j).records, s.ino ≠ i) :
    Inventory L (V.dropInode i) nodes where
  toOwned := h.toOwned.drop (h.ready.dropInode hL hi.ne_zero hi.lt hi.set) rfl rfl rfl
    (fun j hj _ b hb => h.set j hj b hb)
  toNamed := by
    have hlive : ∀ j, Live L (V.dropInode i) j ↔ Live L V j ∧ j ≠ i := fun j => live_drop rfl
    refine h.toNamed.sub ((hlive _).mpr ⟨h.root.1, hroot.symm⟩) (fun _ _ => rfl) ?_
    intro j hj r hr
    obtain ⟨hj', -⟩ := (hlive j).mp hj
    exact ⟨hj', hr, (hlive _).mpr ⟨(h.target j hj' r hr).1, hnew j hj' r hr⟩⟩

/-- Blocks that no inode owns are taken and written. -/
theorem Inventory.leak {leaked : List Nat} (h : Inventory L V nodes)
    (htakes : Takes L V V' leaked leaked) :
    Inventory L V' nodes ∧ Same L V nodes V' nodes := by
  have hlive : ∀ j, Live L V' j ↔ Live L V j := fun j => live_congr htakes.inodeBit
  have hblock : ∀ j, Live L V j → ∀ b ∈ (nodes j).blocks, V'.block b = V.block b := by
    intro j hj b hb
    refine htakes.block b (fun hmem => ?_)
    have hclear := (htakes.fresh b hmem).2
    rw [h.set j hj b hb] at hclear
    cases hclear
  refine ⟨⟨⟨htakes.ready, ?_, ?_, ?_, ?_, ?_⟩, ?_⟩, htakes.inodeBit, ?_, fun _ _ => rfl⟩
  · intro j hj
    rw [htakes.inode]
    exact h.sealed j ((hlive j).mp hj)
  · intro j hj
    rw [htakes.inode]
    exact (h.holds j ((hlive j).mp hj)).congr (hblock j ((hlive j).mp hj))
  · intro j hj b hb
    exact htakes.blockBit_of_set (h.set j ((hlive j).mp hj) b hb)
  · intro j hj
    exact h.nodup j ((hlive j).mp hj)
  · intro j k hj hk
    exact h.apart j k ((hlive j).mp hj) ((hlive k).mp hk)
  · exact h.toNamed.congr htakes.inodeBit (fun j _ => by rw [htakes.inode])
      (fun j _ => List.Subset.refl _)
  · intro j hj
    refine ⟨(hlive j).mpr hj, by rw [htakes.inode], rfl, rfl, fun b hb => ?_⟩
    exact hblock j hj b (List.mem_append_left _ hb)

/-! ## Creating -/

/-- A credential in the range of its C type. -/
structure Cred.Fits (cred : Cred) : Prop where
  uid : cred.uid < 2 ^ 32
  gid : cred.gid < 2 ^ 32

theorem newInode_fits {cred : Cred} (hcred : cred.Fits) {type : Nat} (htype : type < 2 ^ 16)
    (hi : i < 2 ^ 64) (mode : Nat) : (newInode i type mode cred).Fits := by
  have hmode : mode &&& 0x0FFF ≤ 0x0FFF := Nat.and_le_right
  have hzero : Inode.zero.Fits := by decide
  rw [Inode.fits_iff] at hzero ⊢
  obtain ⟨⟨-, -, -, -, -, -, hcount, hreserved⟩, hrest⟩ := hzero
  exact ⟨⟨hi, htype, lt_of_le_of_lt hmode (by decide), hcred.uid, hcred.gid,
    (by decide : 1 < 2 ^ 32), hcount, hreserved⟩, hrest⟩

theorem newInode_aces {cred : Cred} (type mode : Nat) : (newInode i type mode cred).aces V = [] :=
  rfl

theorem newInode_aclAt {cred : Cred} (type mode : Nat) : AclAt L (newInode i type mode cred) [] :=
  ⟨Or.inl ⟨rfl, rfl⟩, Nat.zero_le _⟩

/-- The node of a new file. -/
theorem holds_newFile {cred : Cred} {mode : Nat} {acl : List Nat} (hi : i < 2 ^ 64)
    (hacl : AclAt L x acl) (hbare : x.bare = (newInode i nyfsInoTypeFile mode cred).bare)
    (hfits : x.Fits) :
    (⟨[], [], fun _ => [], 0, acl⟩ : Node).Holds L V (sealInode i x) := by
  have htype : x.type = nyfsInoTypeFile := congrArg Inode.type hbare
  have hdata : x.dataExtentRoot = nyfsBlknoNone := congrArg Inode.dataExtentRoot hbare
  have hlink : x.linkCount = 1 := congrArg Inode.linkCount hbare
  have htable : x.dirHashRoot = nyfsBlknoNone := congrArg Inode.dirHashRoot hbare
  refine ⟨hfits.sealInode hi, hlink, ⟨hacl.block, hacl.fits⟩, ?_, Or.inl htype,
    fun _ => ⟨htable, rfl, rfl⟩, ?_⟩
  · change Stream L V x.dataExtentRoot []
    rw [hdata]
    exact Stream.nil
  · intro hdir
    change x.type = _ at hdir
    rw [htype] at hdir
    cases hdir

/-- The node of a new directory. -/
theorem holds_newDir {cred : Cred} {mode root : Nat} {acl : List Nat} {segs : List Segment}
    (hL : L.Valid) (hi : i < 2 ^ 64) (hacl : AclAt L x acl)
    (hbare : x.bare = (newInode i nyfsInoTypeDir mode cred).bare) (hfits : x.Fits)
    (hdir : Dir L V root segs (fun _ => []) 160) :
    (⟨[], segs, fun _ => [], 160, acl⟩ : Node).Holds L V
      (sealInode i { x with dirHashRoot := root, dirEntryCount := 0 }) := by
  have htype : x.type = nyfsInoTypeDir := congrArg Inode.type hbare
  have hdata : x.dataExtentRoot = nyfsBlknoNone := congrArg Inode.dataExtentRoot hbare
  have hlink : x.linkCount = 1 := congrArg Inode.linkCount hbare
  have hroot := hdir.stream.chain.root_lt hL
  refine ⟨?_, hlink, ⟨hacl.block, hacl.fits⟩, ?_, Or.inr htype, ?_, fun _ => ⟨hdir, rfl⟩⟩
  · refine Inode.Fits.sealInode ?_ hi
    rw [Inode.fits_iff] at hfits ⊢
    obtain ⟨hhead, hace, h1, h2, h3, h4, h5, h6, h7, -, -, h10⟩ := hfits
    exact ⟨hhead, hace, h1, h2, h3, h4, h5, h6, h7, hroot, (by decide : 0 < 2 ^ 64), h10⟩
  · change Stream L V x.dataExtentRoot []
    rw [hdata]
    exact Stream.nil
  · intro hfile
    change x.type = _ at hfile
    rw [htype] at hfile
    cases hfile

/-- The blocks that an inode takes for an access control list; none when it cannot have one. -/
def storePlan (L : Layout) (V : View) (aces : List Ace) : Option (List Nat) :=
  if aces.length ≤ nyfsAclInlineCount then
    some []
  else if L.blockSize < (aces.length - nyfsAclInlineCount) * 12 then
    none
  else
    (firstClear V.blockBit L.totalBlocks 0).map (fun b => [b])

/-- The blocks of an access control list that a new inode takes; none when it cannot have
one. -/
def aclPlan (L : Layout) (V : View) (x : Inode) (isDir : Bool) : Option (List Nat) :=
  if (inheritedAces V x isDir).length ≤ nyfsAclInlineCount then
    some []
  else if L.blockSize < ((inheritedAces V x isDir).length - nyfsAclInlineCount) * 12 then
    none
  else
    (firstClear V.blockBit L.totalBlocks 0).map (fun b => [b])

/-- The blocks of a hash table that a new inode takes; none when the disk is full. -/
def tablePlan (L : Layout) (bits : Nat → Bool) (isDir : Bool) : Option (List Nat) :=
  if isDir then (planOne L bits none).map (fun p => p.1 :: p.2.1) else some []

/-- A creation that takes blocks for the new inode and then finds the disk full. -/
def MakeLeaks (L : Layout) (V : View) (n : Node) (x : Inode) (name : List UInt8) (isDir : Bool) :
    Prop :=
  ∃ acl, aclPlan L V x isDir = some acl ∧
    (tablePlan L (mark V.blockBit acl) isDir = none ∧ acl ≠ [] ∨
      ∃ table, tablePlan L (mark V.blockBit acl) isDir = some table ∧ acl ++ table ≠ [] ∧
        capacity L n.table < n.free + 24 + name.length ∧
        planOne L (mark V.blockBit (acl ++ table)) (tailOf n.table) = none)

/-- A creation that finds room for everything it needs. -/
def MakeFits (L : Layout) (V : View) (n : Node) (x : Inode) (name : List UInt8) (isDir : Bool) :
    Prop :=
  ∃ acl table, aclPlan L V x isDir = some acl ∧
    tablePlan L (mark V.blockBit acl) isDir = some table ∧
    (n.free + 24 + name.length ≤ capacity L n.table ∨
      planOne L (mark V.blockBit (acl ++ table)) (tailOf n.table) ≠ none)

theorem MakeFits.not_leaks {name : List UInt8} {isDir : Bool} (h : MakeFits L V n x name isDir) :
    ¬MakeLeaks L V n x name isDir := by
  obtain ⟨acl, table, hacl, htable, hroom⟩ := h
  rintro ⟨acl', hacl', hleak⟩
  rw [hacl] at hacl'
  cases hacl'
  rcases hleak with ⟨hnone, -⟩ | ⟨table', htable', -, hlt, hnone⟩
  · rw [htable] at hnone
    cases hnone
  · rw [htable] at htable'
    cases htable'
    rcases hroom with hfit | hplan
    · omega
    · exact hplan hnone

/-- A creation that gets as far as taking an inode. -/
structure MakeStarts (L : Layout) (V : View) (n : Node) (x : Inode) (name : List UInt8)
    (cred : Cred) : Prop where
  type : x.type = nyfsInoTypeDir
  grants : Grants V x cred nyfsAceWriteData
  nameOk : NameOk name
  absent : n.find name = none
  room : firstClear V.inodeBit L.inodeCount 0 ≠ none

/-- A new inode with its name. -/
structure Made (L : Layout) (V : View) (nodes : Nat → Node) (p : Nat) (name : List UInt8)
    (fresh : Inode) (i : Nat) (V' : View) (nodes' : Nat → Node) : Prop where
  first : firstClear V.inodeBit L.inodeCount 0 = some i
  inodeBit : V'.inodeBit = Function.update V.inodeBit i true
  kept : ∀ j, Live L V j → Kept L V nodes V' nodes' j
  attributes : ({ (V'.inode i).core.bare with dirHashRoot := 0 } : Inode) = fresh.bare
  parent : (nodes' p).find =
    Function.update (nodes p).find name (some (i, direntType (V'.inode i)))
  others : ∀ j, Live L V j → j ≠ p → (nodes' j).find = (nodes j).find
  self : (nodes' i).find = fun _ => none
  data : (nodes' i).data = []
  free : (nodes' p).free = (nodes p).free + recordSize name.length
  blockBit : ∃ grown, V'.blockBit = mark V.blockBit ((nodes' i).blocks ++ grown) ∧
    ∀ b ∈ grown, b ∈ chainBlocks (nodes' p).table

theorem AclStored.plan {child : Inode} {aces : List Ace} {r : Except Stop Inode} {acl : List Nat}
    (h : AclStored L V child aces r V' acl) :
    (∃ child', r = .ok child' ∧ AclAt L child' acl ∧ child'.bare = child.bare ∧ child'.Fits ∧
      child'.aces V' = aces ∧ storePlan L V aces = some acl) ∨
    (∃ e, r = .error (.status e) ∧ V' = V ∧ storePlan L V aces = none) := by
  unfold storePlan
  cases h with
  | inline child' hacl hbare hfits hle haces =>
      exact Or.inl ⟨child', rfl, hacl, hbare, hfits, haces, if_pos hle⟩
  | overflow child' V' b hacl hbare hfits htakes hlt hfit hfirst haces =>
      refine Or.inl ⟨child', rfl, hacl, hbare, hfits, haces, ?_⟩
      rw [if_neg (Nat.not_le.mpr hlt), if_neg (Nat.not_lt.mpr hfit), hfirst, Option.map_some]
  | failed e hlt hreason =>
      refine Or.inr ⟨e, rfl, rfl, ?_⟩
      rw [if_neg (Nat.not_le.mpr hlt)]
      rcases hreason with hbig | hfull
      · rw [if_pos hbig]
      · split
        next => rfl
        next => rw [hfull, Option.map_none]

/-- The second half of a creation: a new inode that has been filled gets its record and its
name. -/
theorem Inventory.linkNode (hL : L.Valid) (h : Inventory L V nodes) (hp : Live L V p)
    (hptype : (V.inode p).type = nyfsInoTypeDir) {name : List UInt8} (hname : NameOk name)
    (habsent : (nodes p).find name = none) (h0 : i ≠ 0) (hi : i < L.inodeCount)
    (hclear : V.inodeBit i = false) {V₁ : View} {taken touched : List Nat}
    (htakes : Takes L (V.takeInode i) V₁ taken touched) (hperm : n.blocks.Perm taken)
    (htouch : touched ⊆ n.blocks) (hx : n.Holds L V₁ (sealInode i x)) (hxfits : (sealInode i x).Fits)
    (hempty : n.buckets = fun _ => []) {type : Nat} (htype : type = direntType x) :
    ∃ r V' nodes', Does L V₁ (Nyfs.linkNode p (V.inode p) name i x type : NyfsM D _) r V' ∧
      Inventory L V' nodes' ∧
      ((r = .ok i ∧ V'.inodeBit = Function.update V.inodeBit i true ∧
          (∀ j, Live L V j → Kept L V nodes V' nodes' j) ∧
          (V'.inode i).core = (sealInode i x).core ∧
          (nodes' p).find = Function.update (nodes p).find name (some (i, type)) ∧
          (∀ j, Live L V j → j ≠ p → (nodes' j).find = (nodes j).find) ∧
          nodes' i = n ∧ (nodes' p).free = (nodes p).free + recordSize name.length ∧
          ((nodes p).free + 24 + name.length ≤ capacity L (nodes p).table →
            V'.blockBit = mark V.blockBit taken ∧ (nodes' p).table = (nodes p).table) ∧
          (capacity L (nodes p).table < (nodes p).free + 24 + name.length →
            planOne L (mark V.blockBit taken) (tailOf (nodes p).table) ≠ none) ∧
          (V'.inode i).aces V' = x.aces V₁ ∧
          ∃ grown, V'.blockBit = mark V.blockBit (n.blocks ++ grown) ∧
            ∀ b ∈ grown, b ∈ chainBlocks (nodes' p).table) ∨
        (∃ e, r = .error (.status e) ∧ Same L V nodes V' nodes' ∧
          (∀ j, Live L V j → nodes' j = nodes j) ∧ V'.blockBit = mark V.blockBit taken ∧
          capacity L (nodes p).table < (nodes p).free + 24 + name.length ∧
          planOne L (mark V.blockBit taken) (tailOf (nodes p).table) = none)) := by
  have hnotlive : ¬Live L V i := by
    intro hl
    rw [hl.set] at hclear
    cases hclear
  have hne : ∀ j, Live L V j → j ≠ i := by
    rintro j hj rfl
    exact hnotlive hj
  have hpi : p ≠ i := hne p hp
  have hrootne : i ≠ nyfsRootIno := fun heq => hnotlive (heq ▸ h.root.1)
  have hrecords : n.records = [] := by
    rw [Node.records, hempty]
    rfl
  -- the new inode is there, without a name
  have howned := h.toOwned.add h0 hi htakes hperm htouch (sealInode_sealed i x) hx
  have hbit₂ : (V₁.writeInode i (sealInode i x)).inodeBit = Function.update V.inodeBit i true :=
    htakes.inodeBit
  have hinode₂ : (V₁.writeInode i (sealInode i x)).inode =
      Function.update V.inode i (sealInode i x) := by
    change Function.update V₁.inode i _ = _
    rw [htakes.inode]
    rfl
  obtain ⟨V₂, hV₂⟩ : ∃ V₂, V₂ = V₁.writeInode i (sealInode i x) := ⟨_, rfl⟩
  rw [← hV₂] at howned hbit₂ hinode₂
  have hblock₂ : V₂.block = V₁.block := by rw [hV₂]; rfl
  have hblockBit₂ : V₂.blockBit = mark V.blockBit taken := by
    rw [hV₂]
    exact htakes.mark_eq
  have hlive₂ : ∀ j, Live L V₂ j ↔ Live L V j ∨ j = i := by
    intro j
    constructor
    · intro hj
      by_cases hji : j = i
      · exact Or.inr hji
      · have := hj.set
        rw [hbit₂, Function.update_of_ne hji] at this
        exact Or.inl ⟨hj.ne_zero, hj.lt, this⟩
    · rintro (hj | rfl)
      · refine ⟨hj.ne_zero, hj.lt, ?_⟩
        rw [hbit₂, Function.update_of_ne (hne j hj)]
        exact hj.set
      · exact ⟨h0, hi, by rw [hbit₂, Function.update_self]⟩
  have hnodes₂ : ∀ j, Live L V j → Function.update nodes i n j = nodes j :=
    fun j hj => Function.update_of_ne (hne j hj) ..
  have hinodes₂ : ∀ j, Live L V j → V₂.inode j = V.inode j := by
    intro j hj
    rw [hinode₂, Function.update_of_ne (hne j hj)]
  have hnamed : Named L V₂ (Function.update nodes i n) := by
    refine h.toNamed.sub ((hlive₂ _).mpr (Or.inl h.root.1)) (fun j hj => by rw [hinodes₂ j hj]) ?_
    intro j hj r hr
    rcases (hlive₂ j).mp hj with hj | rfl
    · rw [hnodes₂ j hj] at hr
      exact ⟨hj, hr, (hlive₂ _).mpr (Or.inl (h.target j hj r hr).1)⟩
    · rw [Function.update_self, hrecords] at hr
      cases hr
  have hinv₂ : Inventory L V₂ (Function.update nodes i n) := ⟨howned, hnamed⟩
  have hkept₂ : ∀ j, Live L V j → Kept L V nodes V₂ (Function.update nodes i n) j := by
    intro j hj
    refine ⟨(hlive₂ j).mpr (Or.inl hj), by rw [hinodes₂ j hj], by rw [hnodes₂ j hj],
      by rw [hnodes₂ j hj], fun b hb => ?_⟩
    rw [hblock₂]
    refine htakes.block b (fun hmem => ?_)
    have hfresh : V.blockBit b = false := (htakes.fresh b (hperm.mem_iff.mp (htouch hmem))).2
    rw [h.set j hj b (List.mem_append_left _ hb)] at hfresh
    cases hfresh
  have hnew : ∀ j, Live L V₂ j → ∀ s ∈ (Function.update nodes i n j).records, s.ino ≠ i := by
    intro j hj s hs heq
    rcases (hlive₂ j).mp hj with hj | rfl
    · rw [hnodes₂ j hj] at hs
      exact hnotlive (heq ▸ (h.target j hj s hs).1)
    · rw [Function.update_self, hrecords] at hs
      cases hs
  have hacl₂ : AclAt L (sealInode i x) n.acl := hx.acl
  have hp₂ := (hlive₂ p).mpr (Or.inl hp)
  have hi₂ := (hlive₂ i).mpr (Or.inr rfl)
  have hxp : V₂.inode p = sealInode p (V.inode p) := by
    rw [hinodes₂ p hp, (h.sealed p hp).sealInode_eq]
  have hdirent : type = direntType (V₂.inode i) := by
    rw [hinode₂, Function.update_self, htype]
    rfl
  have hfresh₂ : (Function.update nodes i n p).find name = none := by
    rw [hnodes₂ p hp]
    exact habsent
  obtain ⟨res, x', V₃, nodes₃, taken₃, hdoes₃, hedit, hout⟩ :=
    Inventory.insertName (D := D) (f := V₂.inode) hL hinv₂ hp₂ hxp hptype hname hfresh₂ hi₂ hrootne
      hdirent hnew
  have hwrite : Does L V₁ (writeInode i x : NyfsM D _) (.ok ()) V₂ := by
    rw [hV₂]
    exact does_writeInode hL h0 hi hxfits
  have hroom : (Function.update nodes i n p).HasRoom L V₂ name ↔
      ((nodes p).free + 24 + name.length ≤ capacity L (nodes p).table ∨
        planOne L (mark V.blockBit taken) (tailOf (nodes p).table) ≠ none) := by
    rw [Node.HasRoom, hnodes₂ p hp, hblockBit₂]
  rcases hout with ⟨rfl, hfind, hhas, hfree, hplace⟩ | ⟨rfl, rfl, rfl, rfl, hhas⟩
  · -- the parent is written
    obtain ⟨hinv, hkept⟩ := hedit.settle rfl
    have hp₃ : Live L V₃ p := (live_congr hedit.inodeBit).mpr hp₂
    have hfits' : (sealInode p x').Fits := by
      have := (hinv.holds p ⟨hp₃.ne_zero, hp₃.lt, hp₃.set⟩).fits
      change (Function.update V₃.inode p (sealInode p x') p).Fits at this
      rwa [Function.update_self] at this
    refine ⟨.ok i, V₃.writeInode p (sealInode p x'), nodes₃, ?_, hinv, Or.inl ⟨rfl, ?_, ?_, ?_, ?_,
      ?_, ?_, ?_, ?_, ?_, ?_, taken₃, ?_, hedit.table⟩⟩
    · refine hwrite.attempt_bind (hdoes₃.bind ?_)
      exact (does_writeInode hL hp.ne_zero hp.lt hfits').bind (Does.pure i)
    · change V₃.inodeBit = _
      rw [hedit.inodeBit, hbit₂]
    · exact fun j hj => (hkept₂ j hj).trans (hkept j ((hlive₂ j).mpr (Or.inl hj)))
    · rw [(hkept i hi₂).core, hinode₂, Function.update_self]
    · rw [hfind, hnodes₂ p hp]
    · intro j hj hjp
      rw [hedit.others j hjp, hnodes₂ j hj]
    · rw [hedit.others i hpi.symm, Function.update_self]
    · rw [hfree, hnodes₂ p hp]
    · intro hle
      rw [hnodes₂ p hp] at hplace
      obtain ⟨htaken, htable⟩ := hplace hle
      refine ⟨?_, htable⟩
      change V₃.blockBit = _
      rw [hedit.blockBit, htaken, mark_nil, hblockBit₂]
    · intro hlt
      rcases hroom.mp hhas with hfit | hplan
      · omega
      · exact hplan
    · rw [(hkept i hi₂).aces (hinv₂.holds i hi₂)]
      refine hacl₂.aces_congr ?_ (fun b _ => by rw [hblock₂])
      rw [hinode₂, Function.update_self]
    · change V₃.blockBit = _
      rw [hedit.blockBit, hblockBit₂, mark_mark, mark_perm (hperm.symm.append_right _)]
  · -- the inode is given back
    obtain ⟨hinv, hkept⟩ := hedit.unchanged rfl hxp
    have hlive₃ : ∀ j, Live L V₃ j ↔ Live L V₂ j := fun j => live_congr hedit.inodeBit
    have hnew₃ : ∀ j, Live L V₃ j → ∀ s ∈ (Function.update nodes i n j).records, s.ino ≠ i :=
      fun j hj => hnew j ((hlive₃ j).mp hj)
    have hback : (V₃.dropInode i).inodeBit = V.inodeBit := by
      change Function.update V₃.inodeBit i false = V.inodeBit
      rw [hedit.inodeBit, hbit₂, Function.update_idem, ← hclear, Function.update_eq_self]
    rw [hroom, not_or, Nat.not_le, not_not] at hhas
    refine ⟨.error (.status .NdiskFull), V₃.dropInode i, Function.update nodes i n, ?_,
      hinv.dropOrphan hL ((hlive₃ i).mpr hi₂) hrootne hnew₃,
      Or.inr ⟨.NdiskFull, rfl, ⟨hback, ?_, fun j hj => by rw [hnodes₂ j hj]⟩, hnodes₂, ?_, hhas⟩⟩
    · exact hwrite.attempt_bind (hdoes₃.bind (does_giveBack hL h0 hi _))
    · intro j hj
      have hk := (hkept₂ j hj).trans (hkept j ((hlive₂ j).mpr (Or.inl hj)))
      exact ⟨(live_congr hback).mpr hj, hk.core, hk.data, hk.acl, hk.block⟩
    · change V₃.blockBit = _
      rw [hedit.blockBit, mark_nil, hblockBit₂]

/-- The inode type that a creation asks for. -/
def makeType (isDir : Bool) : Nat :=
  if isDir then nyfsInoTypeDir else nyfsInoTypeFile

theorem made_attributes {y z : Inode} (hcore : y.core = (sealInode i x).core)
    (hx : x.bare = ({ z with dirHashRoot := x.dirHashRoot } : Inode).bare) (hino : z.ino = i)
    (hroot : z.dirHashRoot = 0) (hcount : z.dirEntryCount = 0) (hsum : z.checksum = 0) :
    ({ y.core.bare with dirHashRoot := 0 } : Inode) = z.bare := by
  rw [hcore]
  have hstep := congrArg (fun w : Inode =>
    ({ w with ino := i, dirEntryCount := 0, checksum := 0, dirHashRoot := 0 } : Inode)) hx
  refine hstep.trans ?_
  subst hino
  cases z
  cases hroot
  cases hcount
  cases hsum
  rfl

/-- What a creation comes to: a new inode with its name, or a failure that leaves all inodes
and names, and that keeps blocks exactly when it finds the disk full after it has taken some. -/
inductive MakeOutcome (L : Layout) (V : View) (nodes : Nat → Node) (isDir : Bool) (p : Nat)
    (name : List UInt8) (mode : Nat) (cred : Cred) (V' : View) (nodes' : Nat → Node) :
    Except Stop Nat → Prop
  | made (i : Nat) (hstarts : MakeStarts L V (nodes p) (V.inode p) name cred)
      (hmade : Made L V nodes p name (newInode i (makeType isDir) mode cred) i V' nodes')
      (hfits : MakeFits L V (nodes p) (V.inode p) name isDir)
      (hplace : (nodes p).free + 24 + name.length ≤ capacity L (nodes p).table →
        (nodes' p).table = (nodes p).table ∧ ∀ acl table,
          aclPlan L V (V.inode p) isDir = some acl →
          tablePlan L (mark V.blockBit acl) isDir = some table →
          V'.blockBit = mark V.blockBit (acl ++ table))
      (haces : (V'.inode i).aces V' = inheritedAces V (V.inode p) isDir)
      (hacl : aclPlan L V (V.inode p) isDir = some (nodes' i).acl) :
      MakeOutcome L V nodes isDir p name mode cred V' nodes' (.ok i)
  | failed (e : Nstatus) (leaked : List Nat) (hsame : Same L V nodes V' nodes')
      (hnodes : ∀ j, Live L V j → nodes' j = nodes j)
      (hbits : V'.blockBit = mark V.blockBit leaked) (hfresh : ∀ b ∈ leaked, V.blockBit b = false)
      (hleak : leaked ≠ [] ↔ MakeStarts L V (nodes p) (V.inode p) name cred ∧
        MakeLeaks L V (nodes p) (V.inode p) name isDir)
      (hno : ¬(MakeStarts L V (nodes p) (V.inode p) name cred ∧
        MakeFits L V (nodes p) (V.inode p) name isDir)) :
      MakeOutcome L V nodes isDir p name mode cred V' nodes' (.error (.status e))

theorem Takes.dropInode (hL : L.Valid) {taken touched : List Nat}
    (h : Takes L (V.takeInode i) V' taken touched) (h0 : i ≠ 0) (hi : i < L.inodeCount)
    (hclear : V.inodeBit i = false) : Takes L V (V'.dropInode i) taken touched where
  ready := h.ready.dropInode hL h0 hi (by rw [h.inodeBit]; exact Function.update_self ..)
  blockBit := h.blockBit
  fresh := h.fresh
  nodup := h.nodup
  inodeBit := by
    change Function.update V'.inodeBit i false = V.inodeBit
    rw [h.inodeBit]
    change Function.update (Function.update V.inodeBit i true) i false = V.inodeBit
    rw [Function.update_idem, ← hclear, Function.update_eq_self]
  inode := h.inode
  block := h.block

/-- The end of the creation of a file. -/
theorem Inventory.makeFile (hL : L.Valid) (h : Inventory L V nodes) (hp : Live L V p)
    {name : List UInt8} {mode : Nat} {cred : Cred}
    (hstarts : MakeStarts L V (nodes p) (V.inode p) name cred)
    (hfirst : firstClear V.inodeBit L.inodeCount 0 = some i) (h0 : i ≠ 0) (hi : i < L.inodeCount)
    (hclear : V.inodeBit i = false) {V₂ : View} {acl : List Nat} {child : Inode}
    (htakes : Takes L (V.takeInode i) V₂ acl acl) (hacl : AclAt L child acl)
    (hbare : child.bare = (newInode i nyfsInoTypeFile mode cred).bare) (hfits : child.Fits)
    (hplan : aclPlan L V (V.inode p) false = some acl)
    (haces : child.aces V₂ = inheritedAces V (V.inode p) false) :
    ∃ r V' nodes', Does L V₂ (Nyfs.linkNode p (V.inode p) name i child nyfsDirentTypeFile :
        NyfsM D _) r V' ∧ Inventory L V' nodes' ∧
      MakeOutcome L V nodes false p name mode cred V' nodes' r := by
  have hilt : i < 2 ^ 64 := by
    have := hL.inodeCount_lt
    omega
  have htype : child.type = nyfsInoTypeFile := congrArg Inode.type hbare
  have hdirent : nyfsDirentTypeFile = direntType child := by
    rw [direntType, htype]
    rfl
  have hblocks : (⟨[], [], fun _ => [], 0, acl⟩ : Node).blocks = acl := by
    simp [Node.blocks, Node.body, chainBlocks, listBlocks, dataBlocks]
  obtain ⟨r, V', nodes', hdoes, hinv, hout⟩ := h.linkNode (D := D)
    (n := ⟨[], [], fun _ => [], 0, acl⟩) (x := child) hL hp hstarts.type hstarts.nameOk
    hstarts.absent h0 hi hclear htakes (by rw [hblocks]) (by rw [hblocks]; exact List.Subset.refl _)
    (holds_newFile hilt hacl hbare hfits) (hfits.sealInode hilt) rfl hdirent
  refine ⟨r, V', nodes', hdoes, hinv, ?_⟩
  rcases hout with ⟨rfl, hbit, hkept, hcore, hparent, hothers, hself, hfree, hplace, hroom,
    hsameAces, hgrown⟩ |
    ⟨e, rfl, hsame, hnodes, hbits, hlt, hnone⟩
  · refine MakeOutcome.made i hstarts ⟨hfirst, hbit, hkept, ?_, ?_, hothers, ?_, ?_, hfree,
      ?_⟩ ?_ ?_ (hsameAces.trans ?_) ?_
    · refine made_attributes hcore ?_ rfl rfl rfl rfl
      rw [hbare, show child.dirHashRoot = 0 from congrArg Inode.dirHashRoot hbare]
      rfl
    · have hcoretype : (V'.inode i).type = child.type :=
        show (V'.inode i).core.type = (sealInode i child).core.type from
          congrArg (fun w : Inode => w.type) hcore
      rw [hparent, hdirent, direntType, direntType, hcoretype]
    · rw [hself]
      rfl
    · rw [hself]
    · rw [hself]
      exact hgrown
    · refine ⟨acl, [], hplan, rfl, (Nat.lt_or_ge _ _).symm.imp_right ?_⟩
      rw [List.append_nil]
      exact hroom
    · intro hle
      obtain ⟨hbits, htable⟩ := hplace hle
      refine ⟨htable, fun acl' table hacl' htable' => ?_⟩
      rw [hplan] at hacl'
      cases hacl'
      cases htable'
      rw [List.append_nil, hbits]
    · exact haces
    · rw [hself]
      exact hplan
  · refine MakeOutcome.failed e acl hsame hnodes hbits (fun b hb => (htakes.fresh b hb).2)
      ⟨fun hne => ⟨hstarts, acl, hplan, Or.inr ⟨[], rfl, ?_, hlt, ?_⟩⟩, ?_⟩ ?_
    · rw [List.append_nil]
      exact hne
    · rw [List.append_nil]
      exact hnone
    · rintro ⟨-, acl', hacl', ⟨hnone', -⟩ | ⟨table, htable', hne, -⟩⟩
      · cases hnone'
      · rw [hplan] at hacl'
        cases hacl'
        cases htable'
        rwa [List.append_nil] at hne
    · rintro ⟨-, acl', table, hacl', htable', hroom⟩
      rw [hplan] at hacl'
      cases hacl'
      cases htable'
      rw [List.append_nil] at hroom
      rcases hroom with hfit | hroom
      · omega
      · exact hroom hnone

/-- The end of the creation of a directory. -/
theorem Inventory.makeDir (hL : L.Valid) (h : Inventory L V nodes) (hp : Live L V p)
    {name : List UInt8} {mode : Nat} {cred : Cred}
    (hstarts : MakeStarts L V (nodes p) (V.inode p) name cred)
    (hfirst : firstClear V.inodeBit L.inodeCount 0 = some i) (h0 : i ≠ 0) (hi : i < L.inodeCount)
    (hclear : V.inodeBit i = false) {V₂ : View} {acl : List Nat} {child : Inode}
    (htakes : Takes L (V.takeInode i) V₂ acl acl) (hacl : AclAt L child acl)
    (hbare : child.bare = (newInode i nyfsInoTypeDir mode cred).bare) (hfits : child.Fits)
    (hplan : aclPlan L V (V.inode p) true = some acl)
    (haces : child.aces V₂ = inheritedAces V (V.inode p) true) :
    ∃ r V' nodes', Does L V₂ (dirhashCreate child >>= fun created =>
        match created with
        | (.error e, _) => giveBack i e
        | (.ok (), child') => Nyfs.linkNode p (V.inode p) name i child' nyfsDirentTypeDir :
        NyfsM D _) r V' ∧ Inventory L V' nodes' ∧
      MakeOutcome L V nodes true p name mode cred V' nodes' r := by
  have hilt : i < 2 ^ 64 := by
    have := hL.inodeCount_lt
    omega
  have hblockBit : V₂.blockBit = mark V.blockBit acl := htakes.mark_eq
  obtain ⟨res, child', segs, V₃, taken, hdoes, hlong, hcreate⟩ :=
    htakes.ready.dirhashCreate (D := D) hL child
  rw [hblockBit] at hcreate
  rcases hcreate with ⟨rfl, hchild', hdir, d, ls, t, hone, -, rfl⟩ | ⟨rfl, rfl, hone⟩
  · have htable : tablePlan L (mark V.blockBit acl) true = some (d :: ls) := by
      rw [tablePlan, if_pos rfl, hone, Option.map_some]
    have htype : child'.type = nyfsInoTypeDir := by
      rw [hchild']
      exact congrArg Inode.type hbare
    have hdirent : nyfsDirentTypeDir = direntType child' := by
      rw [direntType, htype]
      rfl
    have hholds := holds_newDir hL hilt hacl hbare hfits hdir
    rw [← hchild'] at hholds
    have hperm : (chainBlocks segs).Perm (d :: ls) := by
      have := hlong.perm
      rwa [show chainBlocks ([] : List Segment) = [] from rfl, List.append_nil] at this
    have hblocks : (⟨[], segs, fun _ => [], 160, acl⟩ : Node).blocks = acl ++ chainBlocks segs := by
      simp [Node.blocks, Node.body, chainBlocks, listBlocks, dataBlocks]
    obtain ⟨r, V', nodes', hdoes', hinv, hout⟩ := h.linkNode (D := D)
      (n := ⟨[], segs, fun _ => [], 160, acl⟩) (x := child') hL hp hstarts.type hstarts.nameOk
      hstarts.absent h0 hi hclear (htakes.trans hlong.takes)
      (by rw [hblocks]; exact hperm.append_left _) (by rw [hblocks]; exact List.Subset.refl _)
      hholds hholds.fits rfl hdirent
    refine ⟨r, V', nodes', hdoes.bind hdoes', hinv, ?_⟩
    -- the table does not touch the block of the list
    have haces' : child'.aces V₃ = inheritedAces V (V.inode p) true := by
      have hfield : child'.aces V₃ = child.aces V₃ := by
        rw [hchild']
        rfl
      rw [hfield, ← haces]
      refine hacl.aces_congr rfl (fun b hb => ?_)
      refine hlong.takes.block b (fun hmem => ?_)
      have hfree := (hlong.takes.fresh b (hperm.mem_iff.mp hmem)).2
      rw [htakes.blockBit_of_mem hb] at hfree
      cases hfree
    have hfresh : ∀ b ∈ acl ++ d :: ls, V.blockBit b = false :=
      fun b hb => ((htakes.trans hlong.takes).fresh b hb).2
    have hne : acl ++ d :: ls ≠ [] := by simp
    rcases hout with ⟨rfl, hbit, hkept, hcore, hparent, hothers, hself, hfree, hplace, hroom,
    hsameAces, hgrown⟩ |
      ⟨e, rfl, hsame, hnodes, hbits, hlt, hnone⟩
    · refine MakeOutcome.made i hstarts ⟨hfirst, hbit, hkept, ?_, ?_, hothers, ?_, ?_, hfree,
      ?_⟩ ?_ ?_ (hsameAces.trans ?_) ?_
      · refine made_attributes hcore ?_ rfl rfl rfl rfl
        have hstep := congrArg (fun w : Inode =>
          ({ w with dirHashRoot := child'.dirHashRoot, dirEntryCount := 0 } : Inode)) hbare
        refine Eq.trans ?_ hstep
        rw [hchild']
        rfl
      · have hcoretype : (V'.inode i).type = child'.type :=
          show (V'.inode i).core.type = (sealInode i child').core.type from
            congrArg (fun w : Inode => w.type) hcore
        rw [hparent, hdirent, direntType, direntType, hcoretype]
      · rw [hself]
        rfl
      · rw [hself]
      · rw [hself]
        exact hgrown
      · exact ⟨acl, d :: ls, hplan, htable, (Nat.lt_or_ge _ _).symm.imp_right hroom⟩
      · intro hle
        obtain ⟨hbits, hsame⟩ := hplace hle
        refine ⟨hsame, fun acl' table hacl' htable' => ?_⟩
        rw [hplan] at hacl'
        cases hacl'
        rw [htable] at htable'
        cases htable'
        exact hbits
      · exact haces'
      · rw [hself]
        exact hplan
    · refine MakeOutcome.failed e (acl ++ d :: ls) hsame hnodes hbits hfresh
        ⟨fun _ => ⟨hstarts, acl, hplan, Or.inr ⟨d :: ls, htable, hne, hlt, hnone⟩⟩, fun _ => hne⟩ ?_
      rintro ⟨-, acl', table, hacl', htable', hroom⟩
      rw [hplan] at hacl'
      cases hacl'
      rw [htable] at htable'
      cases htable'
      rcases hroom with hfit | hroom
      · omega
      · exact hroom hnone
  · -- no room for the table
    have htable : tablePlan L (mark V.blockBit acl) true = none := by
      rw [tablePlan, if_pos rfl, hone, Option.map_none]
    have htakes' := htakes.dropInode hL h0 hi hclear
    obtain ⟨hinv, hsame⟩ := h.leak htakes'
    refine ⟨_, V₃.dropInode i, nodes, hdoes.bind (does_giveBack hL h0 hi .NdiskFull), hinv,
      MakeOutcome.failed .NdiskFull acl hsame (fun _ _ => rfl) htakes'.mark_eq (fun b hb => (htakes'.fresh b hb).2)
        ⟨fun hne => ⟨hstarts, acl, hplan, Or.inl ⟨htable, hne⟩⟩, ?_⟩ ?_⟩
    · rintro ⟨-, acl', hacl', ⟨-, hne⟩ | ⟨table, htable', -⟩⟩
      · rw [hplan] at hacl'
        cases hacl'
        exact hne
      · rw [hplan] at hacl'
        cases hacl'
        rw [htable] at htable'
        cases htable'
    · rintro ⟨-, acl', table, hacl', htable', -⟩
      rw [hplan] at hacl'
      cases hacl'
      rw [htable] at htable'
      cases htable'

/-- Creating keeps the inventory. -/
theorem Inventory.makeNode (hL : L.Valid) (h : Inventory L V nodes) (hp : Live L V p)
    (isDir : Bool) (name : List UInt8) (mode : Nat) {cred : Cred} (hcred : cred.Fits) :
    ∃ r V' nodes', Does L V (Nyfs.makeNode isDir p name mode cred : NyfsM D _) r V' ∧
      Inventory L V' nodes' ∧ MakeOutcome L V nodes isDir p name mode cred V' nodes' r := by
  have hholds := h.holds p hp
  -- a failure that has changed nothing
  have hearly : ∀ e : Nstatus, Does L V (Nyfs.makeNode isDir p name mode cred : NyfsM D _)
      (.error (.status e)) V →
      (MakeStarts L V (nodes p) (V.inode p) name cred →
        aclPlan L V (V.inode p) isDir = none) →
      ∃ r V' nodes', Does L V (Nyfs.makeNode isDir p name mode cred : NyfsM D _) r V' ∧
        Inventory L V' nodes' ∧ MakeOutcome L V nodes isDir p name mode cred V' nodes' r := by
    intro e hdoes hno
    refine ⟨_, V, nodes, hdoes, h, MakeOutcome.failed e [] Same.refl (fun _ _ => rfl) (mark_nil _).symm
      (fun b hb => by cases hb) ⟨fun hne => absurd rfl hne, ?_⟩ ?_⟩
    · rintro ⟨hstarts, acl, hacl, -⟩
      rw [hno hstarts] at hacl
      cases hacl
    · rintro ⟨hstarts, acl, table, hacl, -⟩
      rw [hno hstarts] at hacl
      cases hacl
  have hread := h.toOwned.does_readDirInode (D := D) hL hp
  by_cases htype : (V.inode p).type = nyfsInoTypeDir
  swap
  · rw [if_pos htype] at hread
    exact hearly _ (does_requireWritable.bind hread.bind_error) (fun hstart => absurd hstart.type htype)
  rw [if_neg (not_not.mpr htype)] at hread
  have haccess := hholds.does_checkAccess (D := D) hL cred nyfsAceWriteData
  by_cases hgrants : Grants V (V.inode p) cred nyfsAceWriteData
  swap
  · rw [if_neg hgrants] at haccess
    exact hearly _ (does_requireWritable.bind (hread.bind haccess.bind_error))
      (fun hstart => absurd hstart.grants hgrants)
  rw [if_pos hgrants] at haccess
  have habsentDoes := hholds.does_requireAbsent (D := D) hL htype name
  rcases (nodes p).absent_cases name with ⟨e, he⟩ | ⟨hok, hname, habsent⟩
  · rw [he] at habsentDoes
    refine hearly e (does_requireWritable.bind (hread.bind (haccess.bind habsentDoes.bind_error))) ?_
    intro hstart
    have hgood := hstart.nameOk.not_invalid
    rw [Node.absent, if_neg hgood, hstart.absent] at he
    cases he
  rw [hok] at habsentDoes
  rcases h.ready.allocInode (D := D) hL with ⟨i, hfirst, h0, hi, hclear, halloc⟩ | ⟨hfirst, hfull⟩
  swap
  · exact hearly _ (does_requireWritable.bind (hread.bind (haccess.bind (habsentDoes.bind
      hfull.bind_error)))) (fun hstart => absurd hfirst hstart.room)
  have hstarts : MakeStarts L V (nodes p) (V.inode p) name cred :=
    ⟨htype, hgrants, hname, habsent, by rw [hfirst]; exact Option.some_ne_none i⟩
  have hilt : i < 2 ^ 64 := by
    have := hL.inodeCount_lt
    omega
  have htypelt : makeType isDir < 2 ^ 16 := by
    cases isDir
    · decide
    · decide
  have hready₁ := h.ready.takeInode hL hi hclear
  have hholds₁ : (nodes p).Holds L (V.takeInode i) (V.inode p) := hholds.congr (fun _ _ => rfl)
  obtain ⟨r₂, V₂, acl, hdoes₂, hstored⟩ := hholds₁.inheritAcl (D := D) hL hready₁
    (newInode_fits hcred htypelt hilt mode) (newInode_aclAt (L := L) (makeType isDir) mode)
    (newInode_aces (makeType isDir) mode) isDir
  have htakes₂ := hstored.takes hready₁
  have hplan := AclStored.plan hstored
  have hplanEq : storePlan L (V.takeInode i) (inheritedAces (V.takeInode i) (V.inode p) isDir) =
      aclPlan L V (V.inode p) isDir := rfl
  rw [hplanEq] at hplan
  have hstart : ∀ {r : Except Stop Nat} {V' : View}, Does L (V.takeInode i) _ r V' →
      Does L V (Nyfs.makeNode isDir p name mode cred : NyfsM D _) r V' := fun hdoes =>
    does_requireWritable.bind (hread.bind (haccess.bind (habsentDoes.bind (halloc.bind hdoes))))
  rcases hplan with ⟨child, rfl, hacl, hbare, hfits, haces, hplan⟩ | ⟨e, rfl, rfl, hplan⟩
  swap
  · -- the access control list cannot be stored
    refine hearly e ?_ (fun _ => hplan)
    · have hback := does_giveBack (D := D) (V := V.takeInode i) (α := Nat) hL h0 hi e
      rw [h.ready.takeInode_dropInode hL hclear] at hback
      exact hstart (hdoes₂.attempt_bind_error hback)
  cases isDir with
  | false =>
      obtain ⟨r, V', nodes', hdoes, hinv, hout⟩ := h.makeFile (D := D) hL hp hstarts hfirst h0 hi
        hclear htakes₂ hacl hbare hfits hplan haces
      exact ⟨r, V', nodes', hstart (hdoes₂.attempt_bind hdoes), hinv, hout⟩
  | true =>
      obtain ⟨r, V', nodes', hdoes, hinv, hout⟩ := h.makeDir (D := D) hL hp hstarts hfirst h0 hi
        hclear htakes₂ hacl hbare hfits hplan haces
      exact ⟨r, V', nodes', hstart (hdoes₂.attempt_bind hdoes), hinv, hout⟩

end Nyfs
end Nyxis
