import Nyxis.Nyfs.Core
import Nyxis.Nyfs.Directory

/-!
# The inventory of a volume

A node collects what one inode owns: the stream of its data, the stream of its hash table
with the records in it, and the block of its access control list.  {lit}`Owned` says that the live inodes are well formed and that no
block belongs to two of them; {lit}`Named` says that the records of all directories point to
live inodes, to each one at most once.

Main results:

- Theorem {lit}`Owned.put`: an inode is written together with the blocks it owns.
- Theorems {lit}`Owned.replace` and {lit}`Owned.add`: an inode changes or a new one comes.
- Theorem {lit}`Owned.drop`: an inode is given back.
- Theorems {lit}`Named.link`, {lit}`Named.unlink` and {lit}`Named.drop`: the same for names.
-/

namespace Nyxis
namespace Nyfs

variable {L : Layout} {V V' V'' : View}

/-! ## Inodes that fit -/

/-- The fields of an inode that the calls change, and the other ones. -/
theorem Inode.fits_iff (x : Inode) :
    x.Fits ↔ (x.ino < 2 ^ 64 ∧ x.type < 2 ^ 16 ∧ x.unixMode < 2 ^ 16 ∧ x.uid < 2 ^ 32 ∧
        x.gid < 2 ^ 32 ∧ x.linkCount < 2 ^ 32 ∧ x.aceCount < 2 ^ 16 ∧ x.reserved0 < 2 ^ 16) ∧
      (∀ f ∈ x.ace0.fields ++ x.ace1.fields ++ x.ace2.fields ++ x.ace3.fields,
        f.2 < 256 ^ f.1) ∧
      (x.aclOverflowBlock < 2 ^ 64 ∧ x.aclOverflowCount < 2 ^ 32 ∧ x.reserved1 < 2 ^ 32 ∧
        x.size < 2 ^ 64 ∧ x.dataExtentRoot < 2 ^ 64 ∧ x.dataExtentDepth < 2 ^ 8 ∧
        x.reserved2 < 2 ^ 56 ∧ x.dirHashRoot < 2 ^ 64 ∧ x.dirEntryCount < 2 ^ 64 ∧
        x.ctime < 2 ^ 64 ∧ x.mtime < 2 ^ 64 ∧ x.atime < 2 ^ 64 ∧ x.lastTxnId < 2 ^ 64 ∧
        x.checksum < 2 ^ 32 ∧ x.reserved3 < 256 ^ 88) := by
  unfold Inode.Fits Inode.fields
  simp only [List.forall_mem_append, Inode.headFields, Inode.tailFields, List.forall_mem_cons,
    List.not_mem_nil, false_imp_iff, implies_true, and_true, and_assoc]
  rfl

theorem Inode.Fits.sealInode {x : Inode} (h : x.Fits) {i : Nat} (hi : i < 2 ^ 64) :
    (sealInode i x).Fits := by
  rw [Inode.fits_iff] at h ⊢
  obtain ⟨⟨-, hhead⟩, hacl, h1, h2, h3, h4, h5, h6, h7, h8, h9, h10, h11, h12, h13, -, h15⟩ := h
  exact ⟨⟨hi, hhead⟩, hacl, h1, h2, h3, h4, h5, h6, h7, h8, h9, h10, h11, h12, h13,
    nyfsCrc32_lt _, h15⟩

theorem Inode.Fits.setEntryCount {x : Inode} {i count : Nat} (h : (Nyfs.sealInode i x).Fits)
    (hcount : count < 2 ^ 64) : (Nyfs.sealInode i { x with dirEntryCount := count }).Fits := by
  rw [Inode.fits_iff] at h ⊢
  obtain ⟨hhead, hacl, h1, h2, h3, h4, h5, h6, h7, h8, -, h10, h11, h12, h13, -, h15⟩ := h
  exact ⟨hhead, hacl, h1, h2, h3, h4, h5, h6, h7, h8, hcount, h10, h11, h12, h13,
    nyfsCrc32_lt _, h15⟩

/-! ## Nodes -/

/-- What an inode owns. -/
structure Node where
  data : List Segment
  table : List Segment
  buckets : Nat → List Record
  free : Nat
  acl : List Nat

/-- The blocks of a node beside its table. -/
def Node.body (n : Node) : List Nat :=
  chainBlocks n.data ++ n.acl

/-- The blocks of a node. -/
def Node.blocks (n : Node) : List Nat :=
  n.body ++ chainBlocks n.table

/-- The directory records of a node. -/
def Node.records (n : Node) : List Record :=
  entries n.buckets

/-- An inode other than the reserved one whose bit is set. -/
structure Live (L : Layout) (V : View) (i : Nat) : Prop where
  ne_zero : i ≠ 0
  lt : i < L.inodeCount
  set : V.inodeBit i = true

/-- The block of an access control list, and room in it for the stored entries. -/
structure AclAt (L : Layout) (x : Inode) (acl : List Nat) : Prop where
  block : x.aclOverflowBlock = nyfsBlknoNone ∧ acl = [] ∨
    L.IsData x.aclOverflowBlock ∧ acl = [x.aclOverflowBlock]
  fits : x.aclOverflowCount * 12 ≤ L.blockSize

/-- The inode record and the blocks of a node belong together. -/
structure Node.Holds (L : Layout) (V : View) (x : Inode) (n : Node) : Prop where
  fits : x.Fits
  linkCount : x.linkCount = 1
  acl : AclAt L x n.acl
  data : Stream L V x.dataExtentRoot n.data
  type : x.type = nyfsInoTypeFile ∨ x.type = nyfsInoTypeDir
  file : x.type = nyfsInoTypeFile → x.dirHashRoot = nyfsBlknoNone ∧ n.table = [] ∧ n.records = []
  dir : x.type = nyfsInoTypeDir → Dir L V x.dirHashRoot n.table n.buckets n.free ∧
    x.dirEntryCount = n.records.length

/-- The live inodes hold their nodes, and no block belongs to two of them. -/
structure Owned (L : Layout) (V : View) (nodes : Nat → Node) : Prop where
  ready : Ready L V
  sealed : ∀ i, Live L V i → (V.inode i).Sealed i
  holds : ∀ i, Live L V i → (nodes i).Holds L V (V.inode i)
  set : ∀ i, Live L V i → ∀ b ∈ (nodes i).blocks, V.blockBit b = true
  nodup : ∀ i, Live L V i → (nodes i).blocks.Nodup
  apart : ∀ i j, Live L V i → Live L V j → i ≠ j → (nodes i).blocks.Disjoint (nodes j).blocks

/-- The type of a record that points to an inode. -/
def direntType (x : Inode) : Nat :=
  if x.type = nyfsInoTypeDir then nyfsDirentTypeDir else nyfsDirentTypeFile

/-- The records point to live inodes other than the root, to each one at most once. -/
structure Named (L : Layout) (V : View) (nodes : Nat → Node) : Prop where
  root : Live L V nyfsRootIno ∧ (V.inode nyfsRootIno).type = nyfsInoTypeDir
  target : ∀ i, Live L V i → ∀ r ∈ (nodes i).records,
    Live L V r.ino ∧ r.ino ≠ nyfsRootIno ∧ r.type = direntType (V.inode r.ino)
  once : ∀ i j, Live L V i → Live L V j → ∀ r ∈ (nodes i).records, ∀ s ∈ (nodes j).records,
    r.ino = s.ino → i = j ∧ r = s

/-- The whole invariant of a volume. -/
structure Inventory (L : Layout) (V : View) (nodes : Nat → Node) : Prop extends
  Owned L V nodes, Named L V nodes

variable {nodes : Nat → Node} {i : Nat} {x : Inode} {n : Node}

/-! ## Frames -/

theorem Dir.congr {root free : Nat} {segs : List Segment} {buckets : Nat → List Record}
    (h : Dir L V root segs buckets free)
    (heq : ∀ b ∈ chainBlocks segs, V'.block b = V.block b) : Dir L V' root segs buckets free := by
  refine ⟨h.stream.congr (fun b hb => heq b (List.mem_append_left _ hb)), h.nonempty, ?_, h.free_le⟩
  refine h.table.congr (fun o ho => ?_)
  exact streamAt_congr_of_lt (fun b hb => heq b (List.mem_append_right _ hb))
    (lt_of_lt_of_le ho h.free_le)

/-- A node depends on its own blocks only. -/
theorem Node.Holds.congr (h : n.Holds L V x) (heq : ∀ b ∈ n.blocks, V'.block b = V.block b) :
    n.Holds L V' x where
  fits := h.fits
  linkCount := h.linkCount
  acl := h.acl
  data := h.data.congr (fun b hb =>
    heq b (List.mem_append_left _ (List.mem_append_left _ (List.mem_append_left _ hb))))
  type := h.type
  file := h.file
  dir htype := by
    obtain ⟨hdir, hcount⟩ := h.dir htype
    exact ⟨hdir.congr (fun b hb => heq b (List.mem_append_right _ hb)), hcount⟩

/-- An inode is written together with the blocks it owns; the others keep theirs. -/
theorem Owned.put (h : Owned L V nodes) (hready : Ready L V') (h0 : i ≠ 0) (hi : i < L.inodeCount)
    (hbit : V'.inodeBit = Function.update V.inodeBit i true)
    (hinode : V'.inode = Function.update V.inode i x)
    (hothers : ∀ j, Live L V j → j ≠ i → ∀ b ∈ (nodes j).blocks,
      V'.blockBit b = true ∧ V'.block b = V.block b ∧ b ∉ n.blocks)
    (hset : ∀ b ∈ n.blocks, V'.blockBit b = true) (hnodup : n.blocks.Nodup)
    (hsealed : x.Sealed i) (hx : n.Holds L V' x) : Owned L V' (Function.update nodes i n) := by
  have hlive : ∀ j, j ≠ i → Live L V' j → Live L V j := by
    intro j hj hl
    have := hl.set
    rw [hbit, Function.update_of_ne hj] at this
    exact ⟨hl.ne_zero, hl.lt, this⟩
  refine ⟨hready, ?_, ?_, ?_, ?_, ?_⟩
  · intro j hl
    by_cases hj : j = i
    · subst hj
      rw [hinode, Function.update_self]
      exact hsealed
    · rw [hinode, Function.update_of_ne hj]
      exact h.sealed j (hlive j hj hl)
  · intro j hl
    by_cases hj : j = i
    · subst hj
      rw [hinode, Function.update_self, Function.update_self]
      exact hx
    · rw [hinode, Function.update_of_ne hj, Function.update_of_ne hj]
      exact (h.holds j (hlive j hj hl)).congr
        (fun b hb => (hothers j (hlive j hj hl) hj b hb).2.1)
  · intro j hl b hb
    by_cases hj : j = i
    · subst hj
      rw [Function.update_self] at hb
      exact hset b hb
    · rw [Function.update_of_ne hj] at hb
      exact (hothers j (hlive j hj hl) hj b hb).1
  · intro j hl
    by_cases hj : j = i
    · subst hj
      rw [Function.update_self]
      exact hnodup
    · rw [Function.update_of_ne hj]
      exact h.nodup j (hlive j hj hl)
  · intro j k hl hl' hne
    by_cases hj : j = i
    · subst hj
      rw [Function.update_self, Function.update_of_ne hne.symm]
      exact fun b hb hb' => (hothers k (hlive k hne.symm hl') hne.symm b hb').2.2 hb
    · rw [Function.update_of_ne hj]
      by_cases hk : k = i
      · subst hk
        rw [Function.update_self]
        exact fun b hb hb' => (hothers j (hlive j hj hl) hj b hb).2.2 hb'
      · rw [Function.update_of_ne hk]
        exact h.apart j k (hlive j hj hl) (hlive k hk hl') hne

/-- What the taking of blocks by one node leaves to the other nodes. -/
theorem Owned.others {taken touched : List Nat} (h : Owned L V nodes)
    (htakes : Takes L V V' taken touched) {own : List Nat}
    (hsub : n.blocks ⊆ taken ++ own) (htouch : touched ⊆ n.blocks) {j : Nat} (hj : Live L V j)
    (hown : (nodes j).blocks.Disjoint own) {b : Nat} (hb : b ∈ (nodes j).blocks) :
    V'.blockBit b = true ∧ V'.block b = V.block b ∧ b ∉ n.blocks := by
  have hset := h.set j hj b hb
  have hnot : b ∉ n.blocks := by
    intro hmem
    rcases List.mem_append.mp (hsub hmem) with hmem | hmem
    · rw [(htakes.fresh b hmem).2] at hset
      cases hset
    · exact hown hb hmem
  exact ⟨htakes.blockBit_of_set hset, htakes.block b (fun hmem => hnot (htouch hmem)), hnot⟩

/-- The blocks of a longer node. -/
theorem Takes.node_blocks {taken touched own : List Nat} (htakes : Takes L V V' taken touched)
    (hset : ∀ b ∈ own, V.blockBit b = true) (hnodup : own.Nodup)
    (hperm : n.blocks.Perm (taken ++ own)) :
    (∀ b ∈ n.blocks, V'.blockBit b = true) ∧ n.blocks.Nodup := by
  constructor
  · intro b hb
    rcases List.mem_append.mp (hperm.mem_iff.mp hb) with hb | hb
    · exact htakes.blockBit_of_mem hb
    · exact htakes.blockBit_of_set (hset b hb)
  · refine hperm.nodup_iff.mpr (List.Nodup.append htakes.nodup hnodup ?_)
    intro b hb hb'
    have := (htakes.fresh b hb).2
    rw [hset b hb'] at this
    cases this

/-- A live inode is written with a longer node. -/
theorem Owned.replace {taken touched : List Nat} (h : Owned L V nodes) (hi : Live L V i)
    (htakes : Takes L V V' taken touched) (hperm : n.blocks.Perm (taken ++ (nodes i).blocks))
    (htouch : touched ⊆ n.blocks) (hsealed : x.Sealed i) (hx : n.Holds L V' x) :
    Owned L (V'.writeInode i x) (Function.update nodes i n) := by
  obtain ⟨hset, hnodup⟩ := htakes.node_blocks (h.set i hi) (h.nodup i hi) hperm
  refine h.put (htakes.ready.writeInode i x) hi.ne_zero hi.lt ?_ ?_ ?_ hset hnodup hsealed
    (hx.congr (fun b _ => rfl))
  · change V'.inodeBit = _
    rw [htakes.inodeBit, ← hi.set, Function.update_eq_self]
  · change Function.update V'.inode i x = _
    rw [htakes.inode]
  · intro j hj hne b hb
    exact h.others htakes hperm.subset htouch hj (h.apart j i hj hi hne) hb

/-- A new inode is written with the blocks it has taken. -/
theorem Owned.add {taken touched : List Nat} (h : Owned L V nodes) (h0 : i ≠ 0)
    (hi : i < L.inodeCount) (htakes : Takes L (V.takeInode i) V' taken touched)
    (hperm : n.blocks.Perm taken) (htouch : touched ⊆ n.blocks) (hsealed : x.Sealed i)
    (hx : n.Holds L V' x) :
    Owned L (V'.writeInode i x) (Function.update nodes i n) := by
  have hperm' : n.blocks.Perm (taken ++ []) := by rwa [List.append_nil]
  obtain ⟨hset, hnodup⟩ := htakes.node_blocks (by intro b hb; cases hb) List.nodup_nil hperm'
  refine h.put (htakes.ready.writeInode i x) h0 hi htakes.inodeBit ?_ ?_ hset hnodup hsealed
    (hx.congr (fun b _ => rfl))
  · change Function.update V'.inode i x = _
    rw [htakes.inode]
    rfl
  · intro j hj hne b hb
    have hset := h.set j hj b hb
    have hnot : b ∉ n.blocks := by
      intro hmem
      have hfresh : V.blockBit b = false := (htakes.fresh b (hperm.mem_iff.mp hmem)).2
      rw [hset] at hfresh
      cases hfresh
    exact ⟨htakes.blockBit_of_set hset, htakes.block b (fun hmem => hnot (htouch hmem)), hnot⟩

theorem live_drop {j : Nat} (hbit : V'.inodeBit = Function.update V.inodeBit i false) :
    Live L V' j ↔ Live L V j ∧ j ≠ i := by
  constructor
  · intro hl
    have hset := hl.set
    by_cases hj : j = i
    · rw [hbit, hj, Function.update_self] at hset
      cases hset
    · rw [hbit, Function.update_of_ne hj] at hset
      exact ⟨⟨hl.ne_zero, hl.lt, hset⟩, hj⟩
  · rintro ⟨hl, hj⟩
    refine ⟨hl.ne_zero, hl.lt, ?_⟩
    rw [hbit, Function.update_of_ne hj]
    exact hl.set

/-- An inode is given back, and perhaps blocks that no other inode owns. -/
theorem Owned.drop (h : Owned L V nodes) (hready : Ready L V')
    (hbit : V'.inodeBit = Function.update V.inodeBit i false) (hinode : V'.inode = V.inode)
    (hblock : V'.block = V.block)
    (hothers : ∀ j, Live L V j → j ≠ i → ∀ b ∈ (nodes j).blocks, V'.blockBit b = true) :
    Owned L V' nodes := by
  have hlive : ∀ j, Live L V' j → Live L V j ∧ j ≠ i := fun j => (live_drop hbit).mp
  refine ⟨hready, ?_, ?_, ?_, ?_, ?_⟩
  · intro j hl
    rw [hinode]
    exact h.sealed j (hlive j hl).1
  · intro j hl
    rw [hinode]
    exact (h.holds j (hlive j hl).1).congr (fun b _ => by rw [hblock])
  · intro j hl b hb
    exact hothers j (hlive j hl).1 (hlive j hl).2 b hb
  · intro j hl
    exact h.nodup j (hlive j hl).1
  · intro j k hl hl' hne
    exact h.apart j k (hlive j hl).1 (hlive k hl').1 hne

/-! ## Names -/

variable {nodes' : Nat → Node}

/-- Fewer records whose targets are still live. -/
theorem Named.sub (h : Named L V nodes) (hroot : Live L V' nyfsRootIno)
    (htype : ∀ j, Live L V j → (V'.inode j).type = (V.inode j).type)
    (hrecords : ∀ j, Live L V' j → ∀ r ∈ (nodes' j).records,
      Live L V j ∧ r ∈ (nodes j).records ∧ Live L V' r.ino) : Named L V' nodes' where
  root := ⟨hroot, by rw [htype _ h.root.1]; exact h.root.2⟩
  target j hj r hr := by
    obtain ⟨hlive, hmem, hlive'⟩ := hrecords j hj r hr
    obtain ⟨htarget, hne, heq⟩ := h.target j hlive r hmem
    refine ⟨hlive', hne, ?_⟩
    rw [heq, direntType, direntType, htype _ htarget]
  once j k hj hk r hr s hs heq := by
    obtain ⟨hlive, hmem, -⟩ := hrecords j hj r hr
    obtain ⟨hlive', hmem', -⟩ := hrecords k hk s hs
    exact h.once j k hlive hlive' r hmem s hmem' heq

/-- The same records over the same inodes. -/
theorem Named.congr (h : Named L V nodes) (hbit : V'.inodeBit = V.inodeBit)
    (htype : ∀ j, Live L V j → (V'.inode j).type = (V.inode j).type)
    (hrecords : ∀ j, Live L V j → (nodes' j).records ⊆ (nodes j).records) :
    Named L V' nodes' := by
  have hlive : ∀ j, Live L V' j ↔ Live L V j := by
    intro j
    constructor
    · exact fun hj => ⟨hj.ne_zero, hj.lt, by rw [← hbit]; exact hj.set⟩
    · exact fun hj => ⟨hj.ne_zero, hj.lt, by rw [hbit]; exact hj.set⟩
  refine h.sub ((hlive _).mpr h.root.1) htype (fun j hj r hr => ?_)
  have hj' := (hlive j).mp hj
  have hmem := hrecords j hj' hr
  exact ⟨hj', hmem, (hlive _).mpr (h.target j hj' r hmem).1⟩

/-- A record to an inode that had none. -/
theorem Named.link {p : Nat} {r : Record} (h : Named L V nodes) (hbit : V'.inodeBit = V.inodeBit)
    (htype : ∀ j, Live L V j → (V'.inode j).type = (V.inode j).type)
    (hp : (nodes' p).records ⊆ r :: (nodes p).records)
    (hothers : ∀ j, j ≠ p → (nodes' j).records = (nodes j).records) (hlive : Live L V r.ino)
    (hroot : r.ino ≠ nyfsRootIno) (hr : r.type = direntType (V.inode r.ino))
    (hnew : ∀ j, Live L V j → ∀ s ∈ (nodes j).records, s.ino ≠ r.ino) : Named L V' nodes' := by
  have hlives : ∀ j, Live L V' j ↔ Live L V j := by
    intro j
    constructor
    · exact fun hj => ⟨hj.ne_zero, hj.lt, by rw [← hbit]; exact hj.set⟩
    · exact fun hj => ⟨hj.ne_zero, hj.lt, by rw [hbit]; exact hj.set⟩
  have hcases : ∀ j, ∀ s ∈ (nodes' j).records, (j = p ∧ s = r) ∨ s ∈ (nodes j).records := by
    intro j s hs
    by_cases hj : j = p
    · subst hj
      rcases List.mem_cons.mp (hp hs) with rfl | hs
      · exact Or.inl ⟨rfl, rfl⟩
      · exact Or.inr hs
    · rw [hothers j hj] at hs
      exact Or.inr hs
  refine ⟨⟨(hlives _).mpr h.root.1, by rw [htype _ h.root.1]; exact h.root.2⟩, ?_, ?_⟩
  · intro j hj s hs
    rcases hcases j s hs with ⟨-, rfl⟩ | hs
    · exact ⟨(hlives _).mpr hlive, hroot, by rw [hr, direntType, direntType, htype _ hlive]⟩
    · obtain ⟨htarget, hne, heq⟩ := h.target j ((hlives j).mp hj) s hs
      exact ⟨(hlives _).mpr htarget, hne, by rw [heq, direntType, direntType, htype _ htarget]⟩
  · intro j k hj hk s hs t ht heq
    have hj' := (hlives j).mp hj
    have hk' := (hlives k).mp hk
    rcases hcases j s hs with ⟨rfl, rfl⟩ | hs
    · rcases hcases k t ht with ⟨rfl, rfl⟩ | ht
      · exact ⟨rfl, rfl⟩
      · exact absurd heq.symm (hnew k hk' t ht)
    · rcases hcases k t ht with ⟨rfl, rfl⟩ | ht
      · exact absurd heq (hnew j hj' s hs)
      · exact h.once j k hj' hk' s hs t ht heq

/-- What a node says about a name: the inode number and the type. -/
def Node.find (n : Node) (name : List UInt8) : Option (Nat × Nat) :=
  (recordOf n.buckets name).map (fun r => (r.ino, r.type))

theorem find?_cons_perm {rs rs' : List Record} {r : Record} (hnodup : (rs'.map Record.name).Nodup)
    (hperm : rs'.Perm (r :: rs)) (name : List UInt8) :
    rs'.find? (fun s => s.name = name) =
      if name = r.name then some r else rs.find? (fun s => s.name = name) := by
  have hcons : ((r :: rs).map Record.name).Nodup := (hperm.map Record.name).nodup_iff.mp hnodup
  have hrest : (rs.map Record.name).Nodup := (List.nodup_cons.mp hcons).2
  ext s
  rw [find?_name_eq_some hnodup, hperm.mem_iff, List.mem_cons]
  by_cases hname : name = r.name
  · rw [if_pos hname]
    constructor
    · rintro ⟨rfl | hs, heq⟩
      · rfl
      · have hmem : s.name ∈ rs.map Record.name := List.mem_map_of_mem hs
        rw [heq, hname] at hmem
        exact absurd hmem (List.nodup_cons.mp hcons).1
    · rintro ⟨⟩
      exact ⟨Or.inl rfl, hname.symm⟩
  · rw [if_neg hname, find?_name_eq_some hrest]
    constructor
    · rintro ⟨rfl | hs, heq⟩
      · exact absurd heq.symm hname
      · exact ⟨hs, heq⟩
    · rintro ⟨hs, heq⟩
      exact ⟨Or.inr hs, heq⟩

/-- A node with one more record. -/
theorem Node.find_of_perm {n n' : Node} {r : Record} (hnodup : (n'.records.map Record.name).Nodup)
    (hperm : n'.records.Perm (r :: n.records)) :
    n'.find = Function.update n.find r.name (some (r.ino, r.type)) := by
  funext name
  have hfind := find?_cons_perm hnodup hperm name
  unfold Node.find recordOf
  rw [Node.records, Node.records] at hfind
  rw [hfind]
  by_cases hname : name = r.name
  · rw [if_pos hname, hname, Function.update_self]
    rfl
  · rw [if_neg hname, Function.update_of_ne hname]

/-- A node with one record less. -/
theorem Node.find_of_perm_erase {n n' : Node} {r : Record}
    (hnodup : (n.records.map Record.name).Nodup) (hperm : n.records.Perm (r :: n'.records)) :
    n'.find = Function.update n.find r.name none := by
  have hfind := Node.find_of_perm hnodup hperm
  have hfresh : n'.find r.name = none := by
    have hcons := (hperm.map Record.name).nodup_iff.mp hnodup
    have hnot := (List.nodup_cons.mp hcons).1
    rw [Node.find, Option.map_eq_none_iff, recordOf, List.find?_eq_none]
    intro s hs heq
    refine hnot ?_
    rw [← of_decide_eq_true heq]
    exact List.mem_map_of_mem hs
  rw [hfind, Function.update_idem, ← hfresh, Function.update_eq_self]

end Nyfs
end Nyxis
