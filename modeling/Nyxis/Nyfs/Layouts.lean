import Nyxis.Nyfs.Runs

/-!
# The layouts of formatted volumes

{lit}`nyfs_format` computes the sizes of the two bitmaps and of the inode table with 64-bit
numbers and never tests for an overflow.  On a device that has all the blocks asked for, only
the size of the inode table can wrap around; the table then gets far fewer blocks than its
inodes need, and the format goes on with it.

Main results:

- Definition {lit}`WellFormatted`: what a format promises.
- Theorem {lit}`wrapped_succeeds`: a format with a wrapped inode table reports success.
- Theorem {lit}`format_well_formatted_iff`: when a format keeps its promise.
-/

namespace Nyxis
namespace Nyfs

open Bitmap

variable {D : Type} [ReliableDevice D] {L : Layout} {S S' S'' : Store} {p : MkfsParams}

/-! ## The promise -/

/-- The blocks of the superblock, the bitmaps, the inode table and the data area: the first
block of each with the number of blocks. -/
def MkfsParams.regions (p : MkfsParams) : List (Nat × Nat) :=
  [(0, 1), (p.superblock.inodeBitmapStart, p.inodeBitmapBlocks),
    (p.superblock.allocMetaStart, p.blockBitmapBlocks),
    (p.superblock.inodeTableStart, p.inodeTableBlocks),
    (p.firstDataBlock, p.totalBlocks - p.firstDataBlock)]

/-- Two regions without a common block. -/
def Apart (r s : Nat × Nat) : Prop :=
  r.1 + r.2 ≤ s.1 ∨ s.1 + s.2 ≤ r.1

/-- An empty directory that {lit}`nyfs_read_inode` accepts, whose blocks and the metadata are all
that the block bitmap marks. -/
structure EmptyRoot (p : MkfsParams) (v : Volume D) (x : Inode) (n : Node) : Prop where
  read : (readInode nyfsRootIno v).1 = .ok x
  type : x.type = nyfsInoTypeDir
  count : x.dirEntryCount = 0
  empty : ∀ name, NameOk name → (dirhashLookup x name v).1 = .error (.status .NnotFound)
  holds : n.Holds v.sb.layout v.view x
  blockBit : ∀ b, b < p.totalBlocks →
    (v.view.blockBit b = true ↔ b < p.firstDataBlock ∨ b ∈ n.blocks)

/-- A volume as a format promises it. -/
structure WellFormatted (p : MkfsParams) (v : Volume D) : Prop where
  superblock : v.sb.core = p.superblock.core
  apart : p.regions.Pairwise Apart
  inside : ∀ r ∈ p.regions, r.1 + r.2 ≤ p.totalBlocks
  inodeBitmap : p.inodes ≤ p.inodeBitmapBlocks * 2 ^ p.blockSizeShift * 8
  inodeTable : p.inodes * 256 ≤ p.inodeTableBlocks * 2 ^ p.blockSizeShift
  freeBlocks : v.sb.freeBlocks = clearCount v.view.blockBit p.totalBlocks
  freeInodes : v.sb.freeInodeCount = clearCount v.view.inodeBit p.inodes
  root : ∃ x n, EmptyRoot p v x n

/-- The parameters after which the inode table, rounded up to whole blocks, wraps around. -/
def MkfsParams.Wraps (p : MkfsParams) : Prop :=
  2 ^ 64 < p.inodes * 256 + 2 ^ p.blockSizeShift

/-- The parameters that a format accepts, with two blocks left for the root directory. -/
structure MkfsParams.Roomy (p : MkfsParams) : Prop extends p.Accepted where
  room : p.firstDataBlock + 2 ≤ p.totalBlocks

/-! ## Without an overflow -/

/-- The regions follow each other. -/
theorem MkfsParams.Accepted.regions (h : p.Accepted) :
    p.regions.Pairwise Apart ∧ ∀ r ∈ p.regions, r.1 + r.2 ≤ p.totalBlocks := by
  obtain ⟨halloc, htable, hfirst⟩ := h.shift.starts
  have hfits := h.fits
  have hstart : p.superblock.inodeBitmapStart = 1 := rfl
  unfold MkfsParams.regions Apart
  rw [hstart, halloc, htable]
  rw [hfirst] at hfits ⊢
  constructor
  · simp only [List.pairwise_cons, List.forall_mem_cons, List.not_mem_nil, false_imp_iff,
      implies_true, and_true, List.Pairwise.nil]
    omega
  · simp only [List.forall_mem_cons, List.not_mem_nil, false_imp_iff, implies_true, and_true]
    omega

/-- The root directory of a fresh volume is empty, and its blocks are all that is taken beside the
metadata. -/
theorem Fresh.emptyRoot {image : Nat → UInt8} {v : Volume D} {nodes : Nat → Node}
    (h : p.Small) (haccepted : p.Accepted) (hv : Mounted p.layout v)
    (hfresh : Fresh p.layout image v.view nodes) :
    EmptyRoot p v (v.view.inode nyfsRootIno) (nodes nyfsRootIno) := by
  have hL := h.valid haccepted.shift haccepted.fits
  have hlive := hfresh.inventory.root.1
  have htype : (v.view.inode nyfsRootIno).type = nyfsInoTypeDir := by
    rw [hfresh.root]
    rfl
  have hholds := hfresh.inventory.holds _ hlive
  obtain ⟨v₁, hread, -⟩ := (does_readInode (D := D) hL hlive.ne_zero hlive.lt
    (hfresh.inventory.sealed _ hlive)).run hL hv rfl
  refine ⟨by rw [hread], htype, ?_, ?_, ?_, ?_⟩
  · rw [hfresh.root]
    rfl
  · intro name hname
    obtain ⟨v₂, hlookup, -⟩ := (hholds.does_lookup (D := D) hL htype name).run hL hv rfl
    rw [hlookup, Node.lookup, if_neg hname.not_invalid, Node.find, hfresh.empty]
    rfl
  · rw [hv.layout]
    exact hholds
  · intro b _
    obtain ⟨hlayout, hfirst⟩ := h.layout_eq haccepted.shift
    have hdata : p.layout.firstDataBlock = p.firstDataBlock := by rw [hfirst, hlayout]
    rw [hfresh.used b, hdata]

/-- A format whose inode table does not wrap around keeps its promise. -/
theorem MkfsParams.Small.wellFormatted (h : p.Small) {d d' : D}
    (hformat : nyfsFormat d p = (.ok (), d')) :
    ∃ v, mountVolume d' true = (.ok (), v) ∧ WellFormatted p v := by
  rcases nyfsFormat_eq (p := p) d with ⟨⟨e, he⟩, -⟩ | ⟨haccepted, heq⟩
  · rw [he] at hformat
    cases hformat
  have hL := h.valid haccepted.shift haccepted.fits
  obtain ⟨r, w, hrun, hw, hcore, hok, -⟩ := h.format_run haccepted.shift haccepted.fits d
  rw [heq, hrun] at hformat
  obtain ⟨rfl, rfl⟩ := Prod.mk.inj hformat
  obtain ⟨nodes, hfresh⟩ := hok rfl
  obtain ⟨hfits, hcheck⟩ := hfresh.opens h haccepted hw hcore
  obtain ⟨v, hmount, hsb, hshows⟩ := hw.mountVolume_eq hfits hcheck
  have hv := hshows.mounted
  have hview : v.view = w.view := by
    rw [hshows.view_eq hL, Volume.view, hw.layout]
  rw [← hview] at hfresh
  obtain ⟨hib, -, hit⟩ := h.metadata haccepted.shift
  obtain ⟨hapart, hinside⟩ := haccepted.regions
  refine ⟨v, hmount, by rw [hsb, hcore], hapart, hinside, by omega, hit, ?_, ?_, _, _,
    hfresh.emptyRoot h haccepted hv⟩
  · exact hfresh.inventory.ready.freeBlocks
  · exact hfresh.inventory.ready.freeInodes

/-! ## Rules for stores -/

section Rules

variable {α β : Type} {m : NyfsM D α} {f : α → NyfsM D β} {r : Except Stop β} {a : α}

theorem Runs.pure (a : α) : Runs L S (pure a : NyfsM D α) (.ok a) S :=
  fun v hv => ⟨v, rfl, hv, rfl⟩

theorem Runs.gets_bind {g : Volume D → α} (hg : ∀ v, Shows L v S → g v = a)
    (hf : Runs L S (f a) r S') : Runs L S (Eff.gets g >>= f) r S' := by
  intro v hv
  rw [Eff.gets_bind_run, hg v hv]
  exact hf v hv

theorem Runs.attempt_bind {g : Except Nstatus α → NyfsM D β} (hm : Runs L S m (.ok a) S')
    (hg : Runs L S' (g (.ok a)) r S'') : Runs L S (attemptStatus m >>= g) r S'' := by
  refine Runs.bind (fun v hv => ?_) hg
  obtain ⟨v', hrun, hv', hcore⟩ := hm v hv
  exact ⟨v', by rw [attemptStatus, hrun], hv', hcore⟩

theorem Runs.attempt_bind_error {g : Except Nstatus α → NyfsM D β} {e : Nstatus}
    (hm : Runs L S m (.error (.status e)) S') (hg : Runs L S' (g (.error e)) r S'') :
    Runs L S (attemptStatus m >>= g) r S'' := by
  refine Runs.bind (fun v hv => ?_) hg
  obtain ⟨v', hrun, hv', hcore⟩ := hm v hv
  exact ⟨v', by rw [attemptStatus, hrun], hv', hcore⟩

theorem Runs.fail (e : Nstatus) : Runs L S (failWith e : NyfsM D α) (.error (.status e)) S :=
  fun v hv => ⟨v, rfl, hv, rfl⟩

theorem Runs.else_of_not {c : Prop} [Decidable c] {m' : NyfsM D α} {r : Except Stop α} (hc : ¬c)
    (hm : Runs L S m r S') : Runs L S (if c then m' else m) r S' := by
  rw [if_neg hc]
  exact hm

theorem Runs.blockSize_bind {f : Nat → NyfsM D β} (hf : Runs L S (f L.blockSize) r S') :
    Runs L S (Eff.gets Volume.blockSize >>= f) r S' :=
  Runs.gets_bind (fun _ hv => hv.blockSize) hf

/-- The scan for a clear bit behind set ones. -/
theorem runs_findClear {start n count i : Nat}
    (hset : ∀ j, i ≤ j → j < i + n → Runs L S (bitmapGet start j : NyfsM D _) (.ok true) S)
    (hclear : Runs L S (bitmapGet start (i + n) : NyfsM D _) (.ok false) S) (hn : n < count) :
    Runs L S (findClear start count i : NyfsM D _) (.ok (some (i + n))) S := by
  induction n generalizing i count with
  | zero =>
      obtain ⟨k, rfl⟩ := Nat.exists_eq_add_of_lt hn
      exact hclear.bind (Runs.pure (some i))
  | succ n ih =>
      obtain ⟨k, rfl⟩ := Nat.exists_eq_add_of_lt hn
      have hrest := @ih (n + 1 + k) (i + 1) (fun j hlo hhi => hset j (by omega) (by omega))
        (by rw [Nat.add_right_comm, Nat.add_assoc]; exact hclear) (by omega)
      rw [show i + 1 + n = i + (n + 1) by omega] at hrest
      exact (hset i le_rfl (by omega)).bind hrest

theorem runs_findClear_none {start count i : Nat}
    (hset : ∀ j, i ≤ j → j < i + count → Runs L S (bitmapGet start j : NyfsM D _) (.ok true) S) :
    Runs L S (findClear start count i : NyfsM D _) (.ok none) S := by
  induction count generalizing i with
  | zero => exact Runs.pure none
  | succ n ih =>
      exact (hset i le_rfl (by omega)).bind (ih (fun j hlo hhi => hset j (by omega) (by omega)))

end Rules

/-! ## The bitmaps of a wrapped format -/

/-- The regions of an accepted format in bytes.  The block bitmap has room for all blocks, however
the size of the inode table came out. -/
theorem MkfsParams.Accepted.bytes (h : p.Accepted)
    (hbytes : p.totalBlocks * 2 ^ p.blockSizeShift < 2 ^ 64) :
    512 ≤ 2 ^ p.blockSizeShift ∧
      2 * 2 ^ p.blockSizeShift ≤ p.superblock.allocMetaStart * 2 ^ p.blockSizeShift ∧
      p.superblock.allocMetaStart * 2 ^ p.blockSizeShift + (p.totalBlocks + 7) / 8 ≤
        p.superblock.inodeTableStart * 2 ^ p.blockSizeShift ∧
      p.superblock.inodeTableStart * 2 ^ p.blockSizeShift + 2 ^ p.blockSizeShift ≤
        p.firstDataBlock * 2 ^ p.blockSizeShift ∧
      p.firstDataBlock * 2 ^ p.blockSizeShift + 2 ^ p.blockSizeShift < 2 ^ 64 := by
  obtain ⟨halloc, htable, hfirst⟩ := h.shift.starts
  have hbitmap := h.shift.blockBitmap_ge hbytes
  have hfits := h.fits
  have hib : 1 ≤ p.inodeBitmapBlocks := Nat.le_max_left _ _
  have hit : 1 ≤ p.inodeTableBlocks := Nat.le_max_left _ _
  refine ⟨h.shift.size.1, ?_, ?_, ?_, ?_⟩
  · exact Nat.mul_le_mul_right _ (by omega)
  · rw [htable, ← halloc, Nat.add_mul]
    omega
  · rw [← Nat.succ_mul]
    exact Nat.mul_le_mul_right _ (by omega)
  · rw [← Nat.succ_mul]
    exact lt_of_le_of_lt (Nat.mul_le_mul_right _ hfits) hbytes

/-- A store whose block bitmap marks the blocks before the given one, and that differs from
another store in the block bitmap only. -/
structure Marked (p : MkfsParams) (S S' : Store) (n : Nat) : Prop where
  bits : bitsAt S'.image (p.superblock.allocMetaStart * 2 ^ p.blockSizeShift) p.totalBlocks =
    fun b => decide (b < n)
  image : ∀ o, o < p.superblock.allocMetaStart * 2 ^ p.blockSizeShift ∨
    p.superblock.inodeTableStart * 2 ^ p.blockSizeShift ≤ o → S'.image o = S.image o

theorem Marked.trans {n k : Nat} (h : Marked p S S' n) (h' : Marked p S' S'' k) : Marked p S S'' k where
  bits := h'.bits
  image o ho := (h'.image o ho).trans (h.image o ho)

section Wrapped

variable (h : p.Accepted) (hbytes : p.totalBlocks * 2 ^ p.blockSizeShift < 2 ^ 64)

include h hbytes

theorem Marked.runs_get {n b : Nat} (hS : Marked p S' S n) (hb : b < p.totalBlocks) :
    Runs p.layout S (bitmapGet p.superblock.allocMetaStart b : NyfsM D _) (.ok (decide (b < n))) S := by
  obtain ⟨hsize, hlo, hhi, htable, hdata⟩ := h.bytes hbytes
  have hrun := runs_bitmapGet (D := D) (L := p.layout) (S := S) (show
    256 ≤ p.superblock.allocMetaStart * 2 ^ p.blockSizeShift by omega) (by
      change p.superblock.allocMetaStart * 2 ^ p.blockSizeShift + (p.totalBlocks + 7) / 8 < 2 ^ 64
      omega) hb
  have hbit := congrFun hS.bits b
  change Runs p.layout S _ (.ok (bitsAt S.image
    (p.superblock.allocMetaStart * 2 ^ p.blockSizeShift) p.totalBlocks b)) S at hrun
  rw [hbit] at hrun
  exact hrun

/-- Marking the next block. -/
theorem Marked.runs_put {n : Nat} (hS : Marked p S' S n) (hn : n < p.totalBlocks) :
    ∃ S'', Runs p.layout S (bitmapPut p.superblock.allocMetaStart n true : NyfsM D _) (.ok ()) S'' ∧
      Marked p S S'' (n + 1) := by
  obtain ⟨hsize, hlo, hhi, htable, hdata⟩ := h.bytes hbytes
  refine ⟨_, runs_bitmapPut (L := p.layout) (show
    256 ≤ p.superblock.allocMetaStart * 2 ^ p.blockSizeShift by omega) (by
      change p.superblock.allocMetaStart * 2 ^ p.blockSizeShift + (p.totalBlocks + 7) / 8 < 2 ^ 64
      omega) hn true, ?_, ?_⟩
  · refine (bitsAt_splice_putBit S.image _ hn true).trans ?_
    have hbits : bitsAt S.image (p.superblock.allocMetaStart * p.layout.blockSize) p.totalBlocks =
        fun b => decide (b < n) := hS.bits
    funext b
    rw [hbits]
    by_cases hb : b = n
    · subst hb
      rw [Function.update_self, decide_eq_true (Nat.lt_succ_self b)]
    · rw [Function.update_of_ne hb, decide_eq_decide]
      omega
  · intro o ho
    change splice S.image (p.superblock.allocMetaStart * 2 ^ p.blockSizeShift + n / 8) _ o = _
    rcases ho with ho | ho
    · exact splice_of_lt _ _ (by omega)
    · exact splice_of_ge _ (by simp only [List.length_singleton]; omega)

theorem Marked.runs_markBlocks {count n : Nat} (hS : Marked p S' S n) (hle : n + count ≤ p.totalBlocks) :
    ∃ S'', Runs p.layout S (markBlocks p.superblock.allocMetaStart count n : NyfsM D _) (.ok ()) S'' ∧
      Marked p S S'' (n + count) := by
  induction count generalizing S S' n with
  | zero => exact ⟨S, Runs.pure (), hS.bits, fun _ _ => rfl⟩
  | succ k ih =>
      obtain ⟨S₁, hput, hmarked⟩ := hS.runs_put (D := D) h hbytes (by omega)
      obtain ⟨S₂, hrest, hmarked'⟩ := ih hmarked (by omega)
      rw [Nat.add_right_comm] at hmarked'
      exact ⟨S₂, hput.bind hrest, hmarked.trans hmarked'⟩

/-- The allocator takes the next block. -/
theorem Marked.runs_allocBlock {n : Nat} (hS : Marked p S' S n) (hn : n < p.totalBlocks) :
    ∃ S'', Runs p.layout S (allocBlock : NyfsM D _) (.ok n) S'' ∧ Marked p S S'' (n + 1) := by
  have hfind : Runs p.layout S
      (findClear p.superblock.allocMetaStart p.totalBlocks 0 : NyfsM D _) (.ok (some (0 + n))) S := by
    refine runs_findClear (fun j _ hj => ?_) ?_ hn
    · have hget := hS.runs_get (D := D) h hbytes (b := j) (by omega)
      rwa [decide_eq_true (by omega)] at hget
    · have hget := hS.runs_get (D := D) h hbytes (b := 0 + n) (by omega)
      rwa [decide_eq_false (by omega)] at hget
  rw [Nat.zero_add] at hfind
  obtain ⟨S₁, hput, hmarked⟩ := hS.runs_put (D := D) h hbytes hn
  refine ⟨_, Runs.gets_bind (a := p.superblock.allocMetaStart)
    (fun v hv => congrArg Layout.allocMetaStart hv.layout)
    (Runs.gets_bind (a := p.totalBlocks) (fun v hv => congrArg Layout.totalBlocks hv.layout)
      (hfind.bind (hput.bind ((runs_adjustFreeBlocks wrapPred).bind (Runs.pure n))))),
    hmarked.bits, hmarked.image⟩

/-- No block is left. -/
theorem Marked.runs_allocBlock_full (hS : Marked p S' S p.totalBlocks) :
    Runs p.layout S (allocBlock : NyfsM D _) (.error (.status .NdiskFull)) S := by
  have hfind : Runs p.layout S
      (findClear p.superblock.allocMetaStart p.totalBlocks 0 : NyfsM D _) (.ok none) S := by
    refine runs_findClear_none (fun j _ hj => ?_)
    have hget := hS.runs_get (D := D) h hbytes (b := j) (by omega)
    rwa [decide_eq_true (by omega)] at hget
  exact Runs.gets_bind (a := p.superblock.allocMetaStart)
    (fun v hv => congrArg Layout.allocMetaStart hv.layout)
    (Runs.gets_bind (a := p.totalBlocks) (fun v hv => congrArg Layout.totalBlocks hv.layout)
      (hfind.bind (Runs.fail .NdiskFull)))

/-- A block is given back. -/
theorem MkfsParams.Accepted.runs_freeBlock {b : Nat} (hb : b < p.totalBlocks) :
    ∃ S', Runs p.layout S (freeBlock b : NyfsM D _) (.ok ()) S' := by
  obtain ⟨hsize, hlo, hhi, htable, hdata⟩ := h.bytes hbytes
  have hput := runs_bitmapPut (D := D) (L := p.layout) (S := S) (show
    256 ≤ p.superblock.allocMetaStart * 2 ^ p.blockSizeShift by omega) (by
      change p.superblock.allocMetaStart * 2 ^ p.blockSizeShift + (p.totalBlocks + 7) / 8 < 2 ^ 64
      omega) hb false
  exact ⟨_, Runs.gets_bind (a := p.superblock.allocMetaStart)
    (fun v hv => congrArg Layout.allocMetaStart hv.layout)
    (hput.bind (runs_adjustFreeBlocks wrapSucc))⟩

end Wrapped

/-! ## A stream of one block -/

/-- A list block that holds one extent of one block. -/
structure OneExtent (L : Layout) (S : Store) (l b : Nat) : Prop where
  ge : 256 ≤ l * L.blockSize
  lt : l * L.blockSize + 16 < 2 ^ 64
  ne : l ≠ nyfsBlknoNone
  fits : b + 1 < 2 ^ 64
  header : bytesAt S.image (l * L.blockSize) 16 =
    encodeExtentHeader ⟨nyfsExtentMagic, 1, nyfsBlknoNone⟩
  extent : bytesAt S.image (l * L.blockSize + 16) 16 = encodeExtent ⟨b, 1⟩

section Single

variable {l b : Nat} (h : OneExtent L S l b)

include h

theorem OneExtent.runs_header :
    Runs L S (extentHeader l : NyfsM D _) (.ok ⟨nyfsExtentMagic, 1, nyfsBlknoNone⟩) S := by
  refine Runs.blockSize_bind ((runs_rawRead 16 h.ge (by have := h.lt; omega)).bind ?_)
  rw [h.header, decodeExtentHeader_encode (by decide) (by decide) (by decide)]
  exact Runs.pure _

theorem OneExtent.runs_extents : Runs L S (readExtents l 1 : NyfsM D _) (.ok [⟨b, 1⟩]) S := by
  have hfits := h.fits
  refine Runs.blockSize_bind ((runs_rawRead (1 * 16) (by have := h.ge; omega) h.lt).bind ?_)
  rw [Nat.one_mul, h.extent]
  have hdecode : decodeExtents 1 (encodeExtent ⟨b, 1⟩) = [⟨b, 1⟩] := by
    rw [decodeExtents, decodeExtents, decodeExtent_encode (by dsimp only; omega) (by dsimp only; decide)]
  rw [hdecode]
  exact Runs.pure _

theorem OneExtent.runs_resolve : Runs L S (extentResolve l 0 : NyfsM D _) (.ok b) S := by
  have hfits := h.fits
  have hscan : scanExtents 0 [⟨b, 1⟩] 0 = .inl b := by
    have hmod : (b + (0 - 0)) % 2 ^ 64 = b := Nat.mod_eq_of_lt (by omega)
    rw [scanExtents, hmod]
    exact if_pos (by dsimp only; decide)
  have hstep : Runs L S (extentResolveLoop 0 (2 ^ 64 - 1 + 1) l 0 : NyfsM D _) (.ok b) S := by
    rw [extentResolveLoop, if_neg h.ne]
    refine h.runs_header.bind (h.runs_extents.bind ?_)
    rw [hscan]
    exact Runs.pure b
  exact hstep

theorem OneExtent.runs_total : Runs L S (extentTotalBlocks l : NyfsM D _) (.ok 1) S := by
  have hstep : Runs L S (extentTotalLoop (2 ^ 64 - 2 + 1 + 1) l 0 : NyfsM D _) (.ok 1) S := by
    rw [extentTotalLoop, if_neg h.ne]
    refine h.runs_header.bind (h.runs_extents.bind ?_)
    rw [extentTotalLoop, if_pos rfl]
    exact Runs.pure _
  exact hstep

/-- Writing into the one block. -/
theorem OneExtent.runs_write {offset : Nat} {bytes : List UInt8} (hne : bytes ≠ [])
    (hfit : offset + bytes.length ≤ L.blockSize) (hlo : 256 ≤ b * L.blockSize)
    (hhi : b * L.blockSize + L.blockSize < 2 ^ 64) :
    Runs L S (extentWriteLoop l bytes.length offset bytes : NyfsM D _) (.ok ())
      { S with image := splice S.image (b * L.blockSize + offset) bytes } := by
  obtain ⟨c, cs, rfl⟩ := List.exists_cons_of_ne_nil hne
  have hlen : (c :: cs).length = cs.length + 1 := rfl
  have hpos : offset < L.blockSize := by omega
  rw [hlen, extentWriteLoop, if_neg (by rw [hlen]; omega)]
  refine Runs.blockSize_bind ?_
  have hchunk : min (L.blockSize - offset % L.blockSize) (c :: cs).length = (c :: cs).length := by
    rw [Nat.mod_eq_of_lt hpos]
    omega
  dsimp only
  rw [hchunk, Nat.div_eq_of_lt hpos, Nat.mod_eq_of_lt hpos, List.take_length, List.drop_length]
  refine h.runs_resolve.bind ((runs_rawWrite (by omega) (by omega)).bind ?_)
  cases cs with
  | nil => exact Runs.pure ()
  | cons c' cs => exact Runs.pure ()

omit h in
theorem blocksNeeded_eq_one {n size : Nat} (hpos : 0 < n) (hle : n ≤ size) (hsize : 2 * size < 2 ^ 64) :
    (n + size - 1) % 2 ^ 64 / size = 1 := by
  rw [Nat.mod_eq_of_lt (by omega)]
  exact Nat.div_eq_of_lt_le (by omega) (by omega)

theorem OneExtent.runs_writeAt {offset : Nat} {bytes : List UInt8} (hne : bytes ≠ [])
    (hfit : offset + bytes.length ≤ L.blockSize) (hlo : 256 ≤ b * L.blockSize)
    (hhi : b * L.blockSize + L.blockSize < 2 ^ 64) (hsize : L.blockSize ≤ 65536) :
    Runs L S (extentWriteAt l offset bytes : NyfsM D _) (.ok (.ok bytes.length, l))
      { S with image := splice S.image (b * L.blockSize + offset) bytes } := by
  have hpos : 0 < bytes.length := List.length_pos_iff.mpr hne
  rw [extentWriteAt, if_neg (by omega)]
  refine Runs.blockSize_bind (h.runs_total.attempt_bind ?_)
  dsimp only
  rw [blocksNeeded_eq_one (by omega) hfit (by omega)]
  refine (Runs.pure _).bind ((h.runs_write hne hfit hlo hhi).attempt_bind ?_)
  exact Runs.pure _

end Single

/-- Writes before the list block keep it. -/
theorem OneExtent.splice {l b offset : Nat} {bytes : List UInt8} (h : OneExtent L S l b)
    (hle : offset + bytes.length ≤ l * L.blockSize) :
    OneExtent L { S with image := Nyxis.splice S.image offset bytes } l b where
  ge := h.ge
  lt := h.lt
  ne := h.ne
  fits := h.fits
  header := (bytesAt_splice_of_disjoint _ (Or.inr hle)).trans h.header
  extent := (bytesAt_splice_of_disjoint _ (Or.inr (by omega))).trans h.extent

/-- A new stream takes the first data block, and the next one for its list. -/
theorem Marked.runs_appendOne (h : p.Roomy)
    (hbytes : p.totalBlocks * 2 ^ p.blockSizeShift < 2 ^ 64) (hS : Marked p S' S p.firstDataBlock) :
    ∃ S'', Runs p.layout S (extentAppendOne nyfsBlknoNone : NyfsM D _)
        (.ok (p.firstDataBlock + 1)) S'' ∧
      OneExtent p.layout S'' (p.firstDataBlock + 1) p.firstDataBlock := by
  obtain ⟨hsize, hlo, hhi, htable, -⟩ := h.bytes hbytes
  have hroom := h.room
  have hdata : (p.firstDataBlock + 2) * 2 ^ p.blockSizeShift < 2 ^ 64 :=
    lt_of_le_of_lt (Nat.mul_le_mul_right _ hroom) hbytes
  rw [Nat.add_mul] at hdata
  have htotal := h.shift.totalBlocks_lt hbytes
  have hnext : (p.firstDataBlock + 1) * p.layout.blockSize =
      p.firstDataBlock * 2 ^ p.blockSizeShift + 2 ^ p.blockSizeShift := Nat.succ_mul ..
  obtain ⟨S₁, halloc₁, hmarked₁⟩ := hS.runs_allocBlock (D := D) h.toAccepted hbytes (by omega)
  obtain ⟨S₂, halloc₂, -⟩ := hmarked₁.runs_allocBlock (D := D) h.toAccepted hbytes (by omega)
  have hnew : Runs p.layout S₂
      (writeNewExtentBlock (p.firstDataBlock + 1) p.firstDataBlock : NyfsM D _) (.ok ()) _ :=
    Runs.blockSize_bind ((runs_rawWrite (by omega) (by omega)).bind
      (runs_rawWrite (by omega) (by omega)))
  have hadd : Runs p.layout S₁ (addExtentBlock p.firstDataBlock : NyfsM D _)
      (.ok (p.firstDataBlock + 1)) _ :=
    halloc₂.attempt_bind (hnew.attempt_bind (Runs.pure _))
  refine ⟨_, halloc₁.bind hadd, by omega, by omega, Nat.succ_ne_zero _, by omega, ?_,
    bytesAt_splice_extent _ _ _⟩
  have hself := bytesAt_splice_self S₂.image ((p.firstDataBlock + 1) * p.layout.blockSize)
    (encodeExtentHeader ⟨nyfsExtentMagic, 1, nyfsBlknoNone⟩)
  rw [length_encodeExtentHeader] at hself
  exact (bytesAt_splice_of_disjoint _ (Or.inl le_rfl)).trans hself

/-- The first write into a new stream. -/
theorem Marked.runs_writeAt_none {bytes : List UInt8} (h : p.Roomy)
    (hbytes : p.totalBlocks * 2 ^ p.blockSizeShift < 2 ^ 64) (hS : Marked p S' S p.firstDataBlock)
    (hne : bytes ≠ []) (hfit : bytes.length ≤ 512) :
    ∃ S'', Runs p.layout S (extentWriteAt nyfsBlknoNone 0 bytes : NyfsM D _)
        (.ok (.ok bytes.length, p.firstDataBlock + 1)) S'' ∧
      OneExtent p.layout S'' (p.firstDataBlock + 1) p.firstDataBlock := by
  obtain ⟨hsize, hlo, hhi, htable, hdata⟩ := h.bytes hbytes
  have hle := h.shift.size.2.1
  have hpos : 0 < bytes.length := List.length_pos_iff.mpr hne
  have hblock : p.layout.blockSize = 2 ^ p.blockSizeShift := rfl
  have hstart : p.firstDataBlock * p.layout.blockSize = p.firstDataBlock * 2 ^ p.blockSizeShift := rfl
  have hnext : (p.firstDataBlock + 1) * p.layout.blockSize =
      p.firstDataBlock * 2 ^ p.blockSizeShift + 2 ^ p.blockSizeShift := Nat.succ_mul ..
  have htotal : Runs p.layout S (extentTotalBlocks nyfsBlknoNone : NyfsM D _) (.ok 0) S :=
    Runs.pure 0
  obtain ⟨S₁, happend, hone⟩ := hS.runs_appendOne (D := D) h hbytes
  have hwrite := hone.runs_write (D := D) hne (show 0 + bytes.length ≤ p.layout.blockSize by omega) (by omega)
    (by omega)
  have hgrow : Runs p.layout S (extentGrow (1 - 0) nyfsBlknoNone : NyfsM D _)
      (.ok (.ok (), p.firstDataBlock + 1)) S₁ := happend.attempt_bind (Runs.pure _)
  have hspliced := hone.splice (show p.firstDataBlock * p.layout.blockSize + 0 + bytes.length ≤
    (p.firstDataBlock + 1) * p.layout.blockSize by omega)
  refine ⟨_, ?_, hspliced⟩
  rw [extentWriteAt, if_neg (by omega)]
  refine Runs.blockSize_bind (htotal.attempt_bind ?_)
  dsimp only
  rw [blocksNeeded_eq_one (by omega) (by omega) (by omega)]
  exact hgrow.bind (hwrite.attempt_bind (Runs.pure _))

/-- The table of the root directory is made. -/
theorem Marked.runs_dirhashCreate (h : p.Roomy)
    (hbytes : p.totalBlocks * 2 ^ p.blockSizeShift < 2 ^ 64) (hS : Marked p S' S p.firstDataBlock)
    (dir : Inode) :
    ∃ dir' S'', Runs p.layout S (dirhashCreate dir : NyfsM D _) (.ok (.ok (), dir')) S'' := by
  obtain ⟨hsize, hlo, hhi, htable, hdata⟩ := h.bytes hbytes
  have hle := h.shift.size.2.1
  have hblock : p.layout.blockSize = 2 ^ p.blockSizeShift := rfl
  have hstart : p.firstDataBlock * p.layout.blockSize = p.firstDataBlock * 2 ^ p.blockSizeShift := rfl
  obtain ⟨S₁, hfirst, hone⟩ := hS.runs_writeAt_none (D := D) h hbytes
    (encodeDirhashHeader_ne_nil (tableHeader 0 160)) (by rw [length_encodeDirhashHeader]; omega)
  have hsecond := hone.runs_writeAt (D := D) (by decide : emptyBuckets ≠ [])
    (show 32 + emptyBuckets.length ≤ p.layout.blockSize by rw [length_emptyBuckets]; omega) (by omega) (by omega) (by omega)
  exact ⟨_, _, hfirst.bind (hsecond.bind (Runs.pure _))⟩

/-- One data block is not enough for the table and its list block. -/
theorem Marked.runs_dirhashCreate_full (h : p.Accepted)
    (hbytes : p.totalBlocks * 2 ^ p.blockSizeShift < 2 ^ 64) (hS : Marked p S' S p.firstDataBlock)
    (hfull : p.totalBlocks = p.firstDataBlock + 1) (dir : Inode) :
    ∃ dir' S'', Runs p.layout S (dirhashCreate dir : NyfsM D _) (.ok (.error .NdiskFull, dir')) S'' := by
  have hsize := h.shift.size
  obtain ⟨S₁, halloc, hmarked⟩ := hS.runs_allocBlock (D := D) h hbytes (by omega)
  rw [← hfull] at hmarked
  obtain ⟨S₂, hfree⟩ := h.runs_freeBlock (D := D) (S := S₁) hbytes h.fits
  have hignore : Runs p.layout S₁ (ignoreStatus (freeBlock p.firstDataBlock) : NyfsM D _) (.ok ()) S₂ :=
    hfree.attempt_bind (Runs.pure ())
  have hadd : Runs p.layout S₁ (addExtentBlock p.firstDataBlock : NyfsM D _)
      (.error (.status .NdiskFull)) S₂ :=
    (hmarked.runs_allocBlock_full h hbytes).attempt_bind_error (hignore.bind (Runs.fail _))
  have happend : Runs p.layout S (extentAppendOne nyfsBlknoNone : NyfsM D _)
      (.error (.status .NdiskFull)) S₂ := halloc.bind hadd
  have hgrow : Runs p.layout S (extentGrow (1 - 0) nyfsBlknoNone : NyfsM D _)
      (.ok (.error .NdiskFull, nyfsBlknoNone)) S₂ := happend.attempt_bind_error (Runs.pure _)
  have htotal : Runs p.layout S (extentTotalBlocks nyfsBlknoNone : NyfsM D _) (.ok 0) S :=
    Runs.pure 0
  have hblock : p.layout.blockSize = 2 ^ p.blockSizeShift := rfl
  have hfirst : Runs p.layout S (extentWriteAt nyfsBlknoNone 0
      (encodeDirhashHeader (tableHeader 0 160)) : NyfsM D _)
      (.ok (.error .NdiskFull, nyfsBlknoNone)) S₂ := by
    rw [extentWriteAt, length_encodeDirhashHeader, if_neg (by decide)]
    refine Runs.blockSize_bind (htotal.attempt_bind ?_)
    dsimp only
    rw [blocksNeeded_eq_one (by omega) (by omega) (by omega)]
    exact hgrow.bind (Runs.pure _)
  exact ⟨_, _, hfirst.bind ((Runs.pure _).bind (Runs.pure _))⟩

/-! ## The run of a wrapped format -/

section Run

variable (h : p.Accepted) (hbytes : p.totalBlocks * 2 ^ p.blockSizeShift < 2 ^ 64)

include h hbytes

/-- The blocks of both bitmaps are cleared. -/
theorem MkfsParams.Accepted.runs_zeroBlocks :
    ∃ S', Runs p.layout S
        (zeroBlocks (p.inodeBitmapBlocks + p.blockBitmapBlocks) 1 : NyfsM D _) (.ok ()) S' ∧
      ∀ o, 1 * 2 ^ p.blockSizeShift ≤ o →
        o < p.superblock.inodeTableStart * 2 ^ p.blockSizeShift → S'.image o = 0 := by
  obtain ⟨hsize, hlo, hhi, htable, hdata⟩ := h.bytes hbytes
  obtain ⟨-, hstart, -⟩ := h.shift.starts
  have hend : 1 * 2 ^ p.blockSizeShift +
      (p.inodeBitmapBlocks + p.blockBitmapBlocks) * 2 ^ p.blockSizeShift =
        p.superblock.inodeTableStart * 2 ^ p.blockSizeShift := by
    rw [hstart, Nat.add_assoc, Nat.add_mul 1]
  refine ⟨_, Nyfs.runs_zeroBlocks (L := p.layout) ?_ ?_, ?_⟩
  · change 256 ≤ 1 * 2 ^ p.blockSizeShift
    omega
  · change (1 + (p.inodeBitmapBlocks + p.blockBitmapBlocks)) * 2 ^ p.blockSizeShift ≤ 2 ^ 64
    rw [Nat.add_mul, hend]
    omega
  · intro o hge hlt
    rw [← hend] at hlt
    exact splice_replicate hge hlt

/-- The bitmaps are written: the blocks before the data area and inode 0 are taken. -/
theorem MkfsParams.Accepted.runs_formatBitmaps :
    ∃ S', Runs p.layout S (formatBitmaps p : NyfsM D _) (.ok ()) S' ∧
      Marked p S' S' p.firstDataBlock ∧
      bitsAt S'.image (1 * 2 ^ p.blockSizeShift) 8 = Function.update (fun _ => false) 0 true := by
  obtain ⟨hsize, hlo, hhi, htable, hdata⟩ := h.bytes hbytes
  have hfits := h.fits
  obtain ⟨S₁, hzero, himage⟩ := h.runs_zeroBlocks (D := D) (S := S) hbytes
  have hmarked : Marked p S₁ S₁ 0 := by
    refine ⟨?_, fun _ _ => rfl⟩
    rw [bitsAt_zero (fun i hi => himage _ (by omega) (by omega))]
    rfl
  obtain ⟨S₂, hmark, hmarked₂⟩ := hmarked.runs_markBlocks (D := D) h hbytes
    (show 0 + p.firstDataBlock ≤ p.totalBlocks by omega)
  rw [Nat.zero_add] at hmarked₂
  have hput := runs_bitmapPut (D := D) (L := p.layout) (S := S₂)
    (show 256 ≤ 1 * 2 ^ p.blockSizeShift by omega)
    (show 1 * 2 ^ p.blockSizeShift + (8 + 7) / 8 < 2 ^ 64 by omega) (show 0 < 8 by decide) true
  refine ⟨_, hzero.bind (hmark.bind (hput.bind (runs_adjustFreeInodes wrapPred))),
    ⟨?_, fun _ _ => rfl⟩, ?_⟩
  · refine (bitsAt_splice_of_disjoint _ (Or.inl ?_)).trans hmarked₂.bits
    change 1 * 2 ^ p.blockSizeShift + 0 / 8 + 1 ≤ _
    omega
  · refine (bitsAt_splice_putBit S₂.image (1 * 2 ^ p.blockSizeShift) (by decide) true).trans ?_
    rw [bitsAt_zero (fun i hi => ?_)]
    rw [hmarked₂.image _ (Or.inl (by omega)), himage _ (by omega) (by omega)]

/-- The first inode that is handed out is the root's. -/
theorem Marked.runs_allocInode (hS : Marked p S' S p.firstDataBlock)
    (hbits : bitsAt S.image (1 * 2 ^ p.blockSizeShift) 8 = Function.update (fun _ => false) 0 true)
    (hcount : nyfsRootIno < p.inodes) :
    ∃ S'', Runs p.layout S (allocInode : NyfsM D _) (.ok nyfsRootIno) S'' ∧
      Marked p S'' S'' p.firstDataBlock := by
  obtain ⟨hsize, hlo, hhi, htable, hdata⟩ := h.bytes hbytes
  have hget : ∀ i, i < 8 → Runs p.layout S (bitmapGet 1 i : NyfsM D _)
      (.ok (Function.update (fun _ => false) 0 true i)) S := by
    intro i hi
    rw [← hbits]
    exact runs_bitmapGet (L := p.layout) (show 256 ≤ 1 * 2 ^ p.blockSizeShift by omega)
      (show 1 * 2 ^ p.blockSizeShift + (8 + 7) / 8 < 2 ^ 64 by omega) hi
  have hfind : Runs p.layout S (findClear 1 p.inodes 0 : NyfsM D _) (.ok (some (0 + 1))) S := by
    refine runs_findClear (fun j _ hj => ?_) (hget 1 (by decide)) hcount
    obtain rfl : j = 0 := by omega
    exact hget 0 (by decide)
  have hput := runs_bitmapPut (D := D) (L := p.layout) (S := S)
    (show 256 ≤ 1 * 2 ^ p.blockSizeShift by omega)
    (show 1 * 2 ^ p.blockSizeShift + (8 + 7) / 8 < 2 ^ 64 by omega) (show 1 < 8 by decide) true
  refine ⟨_, Runs.gets_bind (a := 1) (fun v hv => congrArg Layout.inodeBitmapStart hv.layout)
    (Runs.gets_bind (a := p.inodes) (fun v hv => congrArg Layout.inodeCount hv.layout)
      (hfind.bind (hput.bind ((runs_adjustFreeInodes wrapPred).bind (Runs.pure nyfsRootIno))))),
    ?_, fun _ _ => rfl⟩
  refine (bitsAt_splice_of_disjoint _ (Or.inl ?_)).trans hS.bits
  change 1 * 2 ^ p.blockSizeShift + 1 / 8 + 1 ≤ _
  omega

/-- The record of the root directory is written. -/
theorem MkfsParams.Accepted.runs_writeRoot (hcount : nyfsRootIno < p.inodes) (x : Inode) :
    ∃ S', Runs p.layout S (writeInode nyfsRootIno x : NyfsM D _) (.ok ()) S' := by
  obtain ⟨hsize, hlo, hhi, htable, hdata⟩ := h.bytes hbytes
  have hoffset : ∀ v : Volume D, Shows p.layout v S →
      v.sb.inodeTableStart * v.blockSize + nyfsRootIno * 256 =
        p.superblock.inodeTableStart * 2 ^ p.blockSizeShift + nyfsRootIno * 256 := by
    intro v hv
    have hstart : v.sb.inodeTableStart = p.superblock.inodeTableStart :=
      congrArg Layout.inodeTableStart hv.layout
    have hblock : v.blockSize = 2 ^ p.blockSizeShift := hv.blockSize
    rw [hstart, hblock]
  have hrecord : Runs p.layout S
      (rawWrite (p.superblock.inodeTableStart * 2 ^ p.blockSizeShift + nyfsRootIno * 256)
        (encodeInode (sealInode nyfsRootIno x)) : NyfsM D _) (.ok ())
      { S with
        image := splice S.image
          (p.superblock.inodeTableStart * 2 ^ p.blockSizeShift + nyfsRootIno * 256)
          (encodeInode (sealInode nyfsRootIno x)) } :=
    runs_rawWrite (by rw [nyfsRootIno]; omega) (by rw [nyfsRootIno]; omega)
  have hcheck : ¬(nyfsRootIno = nyfsInoNone ∨ p.inodes ≤ nyfsRootIno) :=
    not_or.mpr ⟨by decide, Nat.not_le.mpr hcount⟩
  exact ⟨_, Runs.gets_bind (a := p.inodes) (fun v hv => congrArg Layout.inodeCount hv.layout)
    (Runs.else_of_not hcheck (Runs.gets_bind hoffset hrecord))⟩

/-- The root directory decides how a format ends. -/
theorem MkfsParams.Accepted.format_of_dirhashCreate (hcount : nyfsRootIno < p.inodes) (d : D)
    {res : Except Nstatus Unit}
    (hcreate : ∀ S, Marked p S S p.firstDataBlock → ∃ root S',
      Runs p.layout S (dirhashCreate rootInode : NyfsM D _) (.ok (res, root)) S') :
    ∃ d', nyfsFormat d p = (res.mapError Stop.status, d') := by
  rcases nyfsFormat_eq (p := p) d with ⟨-, hno⟩ | ⟨-, heq⟩
  · exact absurd h hno
  obtain ⟨w, hflush, hshows, -⟩ := flush_mounts (L := p.layout)
    (v := (⟨d, true, p.superblock, 2 ^ p.blockSizeShift⟩ : Volume D)) rfl rfl rfl
  obtain ⟨S₁, hbitmaps, hmarked₁, hbits⟩ := h.runs_formatBitmaps (D := D) hbytes
  obtain ⟨S₂, halloc, hmarked₂⟩ := hmarked₁.runs_allocInode (D := D) h hbytes hbits hcount
  obtain ⟨root, S₃, hcreate⟩ := hcreate S₂ hmarked₂
  obtain ⟨S₄, hwrite⟩ := h.runs_writeRoot (D := D) (S := S₃) hbytes hcount root
  have hroot : ∃ S', Runs p.layout S₁ (formatRoot : NyfsM D _) (res.mapError Stop.status) S' := by
    cases res with
    | ok _ =>
        exact ⟨S₄, halloc.bind (Runs.else_of_not (by simp)
          (hcreate.bind (hwrite.bind runs_flushSuperblock)))⟩
    | error e =>
        exact ⟨S₃, halloc.bind (Runs.else_of_not (by simp) (hcreate.bind (Runs.fail e)))⟩
  obtain ⟨S₅, hroot⟩ := hroot
  obtain ⟨w₁, hrun₁, hshows₁, -⟩ := hbitmaps w hshows
  obtain ⟨w₂, hrun₂, -, -⟩ := hroot w₁ hshows₁
  refine ⟨w₂.disk, ?_⟩
  rw [heq, formatVolume, Eff.bind_ok hflush, Eff.bind_ok hrun₁, hrun₂]

omit h in
/-- With two blocks for the root directory a format goes through, whatever the size of the inode
table came out as. -/
theorem wrapped_succeeds (h : p.Roomy) (hcount : nyfsRootIno < p.inodes) (d : D) :
    ∃ d', nyfsFormat d p = (.ok (), d') :=
  h.format_of_dirhashCreate hbytes hcount d
    (fun _ hS => hS.runs_dirhashCreate h hbytes rootInode)

/-- With one block for the root directory a format fails. -/
theorem wrapped_fails (hfull : p.totalBlocks = p.firstDataBlock + 1)
    (hcount : nyfsRootIno < p.inodes) (d : D) :
    ∃ d', nyfsFormat d p = (.error (.status .NdiskFull), d') :=
  h.format_of_dirhashCreate hbytes hcount d
    (fun _ hS => hS.runs_dirhashCreate_full h hbytes hfull rootInode)

end Run

/-! ## When the promise is kept -/

theorem MkfsParams.Wraps.root_lt (hwraps : p.Wraps) (hshift : p.ShiftOk) : nyfsRootIno < p.inodes := by
  have hle := hshift.size.2.1
  have hover : 2 ^ 64 < p.inodes * 256 + 2 ^ p.blockSizeShift := hwraps
  rw [nyfsRootIno]
  omega

/-- A wrapped inode table has no room for its inodes. -/
theorem MkfsParams.Wraps.table_lt (hwraps : p.Wraps) (h : p.Accepted)
    (hbytes : p.totalBlocks * 2 ^ p.blockSizeShift < 2 ^ 64) :
    p.inodeTableBlocks * 2 ^ p.blockSizeShift < p.inodes * 256 := by
  obtain ⟨hge, hle, -⟩ := h.shift.size
  have hfirst := h.shift.starts.2.2
  have hfits := h.fits
  have hover : 2 ^ 64 < p.inodes * 256 + 2 ^ p.blockSizeShift := hwraps
  by_cases hlt : p.inodes * 256 < 2 ^ 64
  · -- The size itself fits: rounding it up wraps around, and one block is left.
    have hone : p.inodeTableBlocks = 1 := by
      unfold MkfsParams.inodeTableBlocks blocksFor
      rw [Nat.mod_eq_of_lt hlt]
      generalize 2 ^ p.blockSizeShift = size at *
      rw [Nat.div_eq_of_lt (by omega)]
      rfl
    rw [hone]
    omega
  · have htable : p.inodeTableBlocks * 2 ^ p.blockSizeShift ≤
        p.totalBlocks * 2 ^ p.blockSizeShift := Nat.mul_le_mul_right _ (by omega)
    omega

/-- On a device that has the blocks asked for, a format produces what it promises or fails exactly
when its inode table does not wrap around, or its parameters are refused or leave no room for the
root directory. -/
theorem format_well_formatted_iff (d : D)
    (hbytes : p.totalBlocks * 2 ^ p.blockSizeShift < 2 ^ 64) :
    (∀ d', nyfsFormat d p = (.ok (), d') →
      ∃ v, mountVolume d' true = (.ok (), v) ∧ WellFormatted p v) ↔ ¬(p.Roomy ∧ p.Wraps) := by
  constructor
  · rintro hgood ⟨hroomy, hwraps⟩
    obtain ⟨d', hformat⟩ := wrapped_succeeds hbytes hroomy (hwraps.root_lt hroomy.shift) d
    obtain ⟨v, -, hwell⟩ := hgood d' hformat
    have htable := hwraps.table_lt hroomy.toAccepted hbytes
    have hroom := hwell.inodeTable
    omega
  · intro hcond d' hformat
    by_cases hwraps : p.Wraps
    · -- The parameters are refused, or the root directory finds one block only.
      exfalso
      rcases nyfsFormat_eq (p := p) d with ⟨⟨e, he⟩, -⟩ | ⟨haccepted, -⟩
      · rw [he] at hformat
        cases hformat
      have hfits := haccepted.fits
      have hroom : ¬p.firstDataBlock + 2 ≤ p.totalBlocks :=
        fun hroom => hcond ⟨⟨haccepted, hroom⟩, hwraps⟩
      obtain ⟨d'', hfails⟩ := wrapped_fails haccepted hbytes (by omega)
        (hwraps.root_lt haccepted.shift) d
      rw [hfails] at hformat
      cases hformat
    · exact MkfsParams.Small.wellFormatted ⟨hbytes, Nat.not_lt.mp hwraps⟩ hformat

theorem format_well_formatted_tiny :
    (tinyParams 114).totalBlocks * 2 ^ (tinyParams 114).blockSizeShift < 2 ^ 64 ∧
      ∃ d' v, nyfsFormat (⟨fun _ => 0⟩ : MemoryDisk) (tinyParams 114) = (.ok (), d') ∧
        mountVolume d' true = (.ok (), v) ∧ WellFormatted (tinyParams 114) v := by
  have hbytes : (tinyParams 114).totalBlocks * 2 ^ (tinyParams 114).blockSizeShift < 2 ^ 64 := by decide
  have hroomy : (tinyParams 114).Roomy :=
    ⟨⟨⟨by decide, by decide⟩, by decide, by decide +kernel⟩, by decide +kernel⟩
  have hwraps : ¬(tinyParams 114).Wraps := by
    unfold MkfsParams.Wraps
    decide
  obtain ⟨d', hformat⟩ := wrapped_succeeds hbytes hroomy (by decide) (⟨fun _ => 0⟩ : MemoryDisk)
  obtain ⟨v, hmount, hwell⟩ := (format_well_formatted_iff (⟨fun _ => 0⟩ : MemoryDisk) hbytes).mpr
    (fun hboth => hwraps hboth.2) d' hformat
  exact ⟨hbytes, d', v, hformat, hmount, hwell⟩

/-- A volume of 64 blocks is formatted for as many inodes as a 64-bit number can say, with a table
that holds two. -/
theorem huge_inode_count_accepted :
    (tinyParams (2 ^ 64 - 1)).totalBlocks * 2 ^ (tinyParams (2 ^ 64 - 1)).blockSizeShift < 2 ^ 64 ∧
      (tinyParams (2 ^ 64 - 1)).inodeTableBlocks * 512 = 2 * 256 ∧
      ∃ d', nyfsFormat (⟨fun _ => 0⟩ : MemoryDisk) (tinyParams (2 ^ 64 - 1)) = (.ok (), d') ∧
        ¬∃ v, mountVolume d' true = (.ok (), v) ∧ WellFormatted (tinyParams (2 ^ 64 - 1)) v := by
  have hbytes : (tinyParams (2 ^ 64 - 1)).totalBlocks *
      2 ^ (tinyParams (2 ^ 64 - 1)).blockSizeShift < 2 ^ 64 := by decide
  have hroomy : (tinyParams (2 ^ 64 - 1)).Roomy :=
    ⟨⟨⟨by decide, by decide⟩, by decide, by decide +kernel⟩, by decide +kernel⟩
  have hwraps : (tinyParams (2 ^ 64 - 1)).Wraps := by
    unfold MkfsParams.Wraps
    decide
  obtain ⟨d', hformat⟩ := wrapped_succeeds hbytes hroomy (hwraps.root_lt hroomy.shift)
    (⟨fun _ => 0⟩ : MemoryDisk)
  refine ⟨hbytes, by decide +kernel, d', hformat, ?_⟩
  rintro ⟨v, -, hwell⟩
  have htable := hwraps.table_lt hroomy.toAccepted hbytes
  have hroom := hwell.inodeTable
  omega

end Nyfs
end Nyxis
