import Nyxis.Nyfs.Stream

/-!
# Growing, writing and freeing streams

Main results:

- Theorem {lit}`Stream.appendOne`: one more data block at the end of a stream, or a full
  disk and nothing changed.
- Theorem {lit}`Stream.writeAt`: a write grows the stream with fresh blocks and splices the
  bytes it has written into it.
- Theorem {lit}`Stream.freeChain`: freeing a stream gives back exactly its blocks.
-/

namespace Nyxis
namespace Nyfs

variable {D : Type} [ReliableDevice D] {L : Layout} {V V' V'' : View}
variable {root root' root'' : Nat} {segs segs' segs'' : List Segment}

/-! ## Freeing -/

/-- The second view has given back the given blocks. -/
structure Releases (L : Layout) (V V' : View) (freed : List Nat) : Prop where
  ready : Ready L V'
  blockBit : ∀ b, V'.blockBit b = (V.blockBit b && !decide (b ∈ freed))
  inodeBit : V'.inodeBit = V.inodeBit
  inode : V'.inode = V.inode
  block : V'.block = V.block

theorem Releases.refl (h : Ready L V) : Releases L V V [] where
  ready := h
  blockBit b := by simp
  inodeBit := rfl
  inode := rfl
  block := rfl

theorem Releases.trans {freed freed' : List Nat} (h : Releases L V V' freed)
    (h' : Releases L V' V'' freed') : Releases L V V'' (freed ++ freed') where
  ready := h'.ready
  blockBit b := by
    rw [h'.blockBit, h.blockBit, Bool.and_assoc]
    congr 1
    by_cases hb : b ∈ freed
    · simp [hb]
    · simp [hb]
  inodeBit := h'.inodeBit.trans h.inodeBit
  inode := h'.inode.trans h.inode
  block := h'.block.trans h.block

/-- A block outside the freed ones keeps its bit. -/
theorem Releases.blockBit_of_notMem {freed : List Nat} (h : Releases L V V' freed) {b : Nat}
    (hb : b ∉ freed) : V'.blockBit b = V.blockBit b := by
  rw [h.blockBit, decide_eq_false hb, Bool.not_false, Bool.and_true]

section Freeing

variable (hL : L.Valid)

include hL

theorem Releases.drop (h : Ready L V) {b : Nat} (hb : L.IsData b) (hset : V.blockBit b = true) :
    Releases L V (V.dropBlock b) [b] where
  ready := h.dropBlock hL hb hset
  blockBit c := by
    change Function.update V.blockBit b false c = _
    by_cases hc : c = b
    · subst hc
      simp
    · rw [Function.update_of_ne hc]
      simp [hc]
  inodeBit := rfl
  inode := rfl
  block := rfl

theorem does_freeExtentBlocks {start count j : Nat} (hR : Ready L V)
    (hge : L.firstDataBlock ≤ start) (hle : start + j + count ≤ L.totalBlocks)
    (hset : ∀ b ∈ List.range' (start + j) count, V.blockBit b = true) :
    ∃ V', Does L V (freeExtentBlocks start count j : NyfsM D _) (.ok ()) V' ∧
      Releases L V V' (List.range' (start + j) count) := by
  induction count generalizing j V with
  | zero => exact ⟨V, Does.pure (), Releases.refl hR⟩
  | succ n ih =>
      have hlt := hL.totalBlocks_lt
      have hdata : L.IsData (start + j) := ⟨by omega, by omega⟩
      have hfirst := Releases.drop hL hR hdata (hset _ (by simp [List.range'_succ]))
      obtain ⟨V', hdoes, hrel⟩ := ih (j := j + 1) hfirst.ready (by omega) (by
        intro b hb
        have hne : b ∉ [start + j] := by
          rw [List.mem_range'_1] at hb
          rw [List.mem_singleton]
          omega
        rw [hfirst.blockBit_of_notMem hne]
        refine hset b ?_
        rw [List.mem_range'_1] at hb ⊢
        omega)
      refine ⟨V', ?_, ?_⟩
      · rw [freeExtentBlocks, Nat.mod_eq_of_lt (by omega)]
        exact (does_freeBlock hL hdata.lt).bind hdoes
      · have htrans := hfirst.trans hrel
        rwa [List.singleton_append, ← Nat.add_assoc, ← List.range'_succ] at htrans

theorem does_freeExtents {extents : List Extent} (hR : Ready L V)
    (hvalid : ∀ e ∈ extents, e.Valid L) (hnodup : (coveredBlocks extents).Nodup)
    (hset : ∀ b ∈ coveredBlocks extents, V.blockBit b = true) :
    ∃ V', Does L V (freeExtents extents : NyfsM D _) (.ok ()) V' ∧
      Releases L V V' (coveredBlocks extents) := by
  induction extents generalizing V with
  | nil => exact ⟨V, Does.pure (), Releases.refl hR⟩
  | cons e es ih =>
      have hv := hvalid e (List.mem_cons_self ..)
      rw [coveredBlocks_cons] at hnodup hset ⊢
      obtain ⟨-, htail, hdisjoint⟩ := List.nodup_append.mp hnodup
      obtain ⟨V₁, hdoes, hrel⟩ := does_freeExtentBlocks (D := D) (j := 0) hL hR hv.ge hv.le
        (fun b hb => hset b (List.mem_append_left _ hb))
      obtain ⟨V₂, hdoes', hrel'⟩ := ih (V := V₁) hrel.ready
        (fun f hf => hvalid f (List.mem_cons_of_mem _ hf)) htail (by
          intro b hb
          rw [hrel.blockBit_of_notMem (fun hmem => hdisjoint b hmem b hb rfl)]
          exact hset b (List.mem_append_right _ hb))
      exact ⟨V₂, hdoes.bind hdoes', hrel.trans hrel'⟩

/-- The order in which the blocks of a chain are freed. -/
def freeOrder (segs : List Segment) : List Nat :=
  segs.flatMap (fun s => coveredBlocks s.extents ++ [s.block])

omit hL in
theorem freeOrder_perm (segs : List Segment) : (freeOrder segs).Perm (chainBlocks segs) := by
  induction segs with
  | nil => exact List.Perm.nil
  | cons s segs ih =>
      have hlist : chainBlocks (s :: segs) =
          s.block :: (listBlocks segs ++ (coveredBlocks s.extents ++ dataBlocks segs)) := by
        rw [chainBlocks, dataBlocks_cons]
        rfl
      have horder : freeOrder (s :: segs) =
          coveredBlocks s.extents ++ [s.block] ++ freeOrder segs :=
        List.flatMap_cons
      rw [hlist, horder]
      rw [List.perm_iff_count] at ih ⊢
      intro b
      have hcount := ih b
      simp only [chainBlocks, List.count_append, List.count_cons, List.count_nil] at hcount ⊢
      omega

theorem Chain.does_freeLoop {fuel : Nat} (h : Chain L V root segs) (hfuel : segs.length < fuel)
    (hR : Ready L V) (hnodup : (freeOrder segs).Nodup)
    (hset : ∀ b ∈ freeOrder segs, V.blockBit b = true) :
    ∃ V', Does L V (freeExtentChainLoop fuel root : NyfsM D _) (.ok ()) V' ∧
      Releases L V V' (freeOrder segs) := by
  induction segs generalizing root V fuel with
  | nil =>
      cases h
      obtain ⟨fuel, rfl⟩ := Nat.exists_eq_add_one_of_ne_zero (Nat.ne_of_gt hfuel)
      rw [freeExtentChainLoop, if_pos rfl]
      exact ⟨V, Does.pure (), Releases.refl hR⟩
  | cons s segs ih =>
      cases h with
      | @cons _ next extents _ hblock hrest =>
          obtain ⟨fuel, rfl⟩ := Nat.exists_eq_add_one_of_ne_zero (Nat.ne_zero_of_lt hfuel)
          have hfuel' : segs.length < fuel := by
            rw [List.length_cons] at hfuel
            omega
          have hne : root ≠ nyfsBlknoNone := hblock.isData.ne_zero hL
          have horder : freeOrder (⟨root, extents⟩ :: segs) =
              coveredBlocks extents ++ [root] ++ freeOrder segs :=
            List.flatMap_cons
          rw [horder] at hnodup hset ⊢
          obtain ⟨hfront, htail, hdisjoint⟩ := List.nodup_append.mp hnodup
          obtain ⟨hcovered, -, hroot⟩ := List.nodup_append.mp hfront
          obtain ⟨V₁, hdoes, hrel⟩ := does_freeExtents (D := D) hL hR hblock.valid hcovered
            (fun b hb => hset b (List.mem_append_left _ (List.mem_append_left _ hb)))
          have hself : V₁.blockBit root = true := by
            rw [hrel.blockBit_of_notMem (fun hmem => hroot root hmem root
              (List.mem_singleton_self root) rfl)]
            exact hset root (List.mem_append_left _ (List.mem_append_right _
              (List.mem_singleton_self root)))
          have hrel₂ := hrel.trans (Releases.drop hL hrel.ready hblock.isData hself)
          have hrest₂ : Chain L (V₁.dropBlock root) next segs :=
            hrest.congr (fun b _ => by rw [hrel₂.block])
          obtain ⟨V₃, hdoes₃, hrel₃⟩ := ih hrest₂ hfuel'
            hrel₂.ready htail (by
              intro b hb
              rw [hrel₂.blockBit_of_notMem (fun hmem => hdisjoint b hmem b hb rfl)]
              exact hset b (List.mem_append_right _ hb))
          refine ⟨V₃, ?_, hrel₂.trans hrel₃⟩
          rw [freeExtentChainLoop, if_neg hne]
          refine (hblock.does_header hL (hrest.root_lt hL)).bind ((hblock.does_extents hL).bind ?_)
          exact hdoes.bind ((does_freeBlock hL hblock.isData.lt).bind hdoes₃)

/-- Freeing a stream gives back exactly its blocks. -/
theorem Stream.freeChain (h : Stream L V root segs) (hR : Ready L V)
    (hset : ∀ b ∈ chainBlocks segs, V.blockBit b = true) :
    ∃ V', Does L V (freeExtentChain root : NyfsM D _) (.ok ()) V' ∧
      Releases L V V' (chainBlocks segs) := by
  have hsegs := (h.lengths hL).1
  have hlt := hL.totalBlocks_lt
  have hperm := freeOrder_perm segs
  have hfuel : segs.length < linkFuel := by
    rw [linkFuel]
    omega
  obtain ⟨V', hdoes, hrel⟩ := h.chain.does_freeLoop (D := D) hL hfuel hR (hperm.nodup_iff.mpr h.nodup)
    (fun b hb => hset b (hperm.mem_iff.mp hb))
  refine ⟨V', hdoes, { hrel with blockBit := fun b => ?_ }⟩
  rw [hrel.blockBit]
  simp only [hperm.mem_iff]

end Freeing

/-! ## List blocks -/

theorem length_flatMap_encodeExtent (extents : List Extent) :
    (extents.flatMap encodeExtent).length = extents.length * 16 := by
  induction extents with
  | nil => rfl
  | cons e es ih =>
      rw [List.flatMap_cons, List.length_append, length_encodeExtent, ih, List.length_cons]
      omega

theorem writeBlock_block (V : View) (b o : Nat) (bytes : List UInt8) :
    (V.writeBlock b o bytes).block b = splice (V.block b) o bytes :=
  Function.update_self ..

/-- A header at the front of a block is read back. -/
theorem bytesAt_splice_header (f : Nat → UInt8) (h : ExtentHeader) :
    bytesAt (splice f 0 (encodeExtentHeader h)) 0 16 = encodeExtentHeader h := by
  have hself := bytesAt_splice_self f 0 (encodeExtentHeader h)
  rwa [length_encodeExtentHeader] at hself

/-- An extent is read back. -/
theorem bytesAt_splice_extent (f : Nat → UInt8) (o : Nat) (e : Extent) :
    bytesAt (splice f o (encodeExtent e)) o 16 = encodeExtent e := by
  have hself := bytesAt_splice_self f o (encodeExtent e)
  rwa [length_encodeExtent] at hself

theorem Extent.Valid.single {d : Nat} (hd : L.IsData d) : (⟨d, 1⟩ : Extent).Valid L :=
  ⟨Nat.one_pos, hd.ge, hd.lt⟩

section Append

variable (hL : L.Valid)

include hL

/-- A new list block with one extent of one block. -/
theorem ListBlock.new {l d : Nat} (hl : L.IsData l) (hd : L.IsData d) :
    ListBlock L ((V.writeBlock l 0 (encodeExtentHeader ⟨nyfsExtentMagic, 1, nyfsBlknoNone⟩)).writeBlock
      l 16 (encodeExtent ⟨d, 1⟩)) l [⟨d, 1⟩] nyfsBlknoNone where
  isData := hl
  nonempty := List.cons_ne_nil _ _
  count_le := (by decide : 1 ≤ nyfsMaxExtentsPerBlock)
  fits := by
    have := hL.blockSize_ge
    simp only [List.length_singleton]
    omega
  header := by
    rw [writeBlock_block, writeBlock_block,
      bytesAt_splice_of_disjoint _ (Or.inl (by decide : 0 + 16 ≤ 16)), bytesAt_splice_header]
    rfl
  content := by
    rw [writeBlock_block]
    exact (bytesAt_splice_extent _ 16 ⟨d, 1⟩).trans (List.append_nil _).symm
  valid := by
    intro e he
    rw [List.mem_singleton] at he
    subst he
    exact Extent.Valid.single hd

omit hL in
/-- The last extent of a list block made longer. -/
theorem ListBlock.merge {b next : Nat} {init : List Extent} {e : Extent}
    (h : ListBlock L V b (init ++ [e]) next) (hle : e.startBlock + e.length < L.totalBlocks) :
    ListBlock L (V.writeBlock b (16 + init.length * 16)
      (encodeExtent { e with length := e.length + 1 })) b
      (init ++ [{ e with length := e.length + 1 }]) next where
  isData := h.isData
  nonempty := by simp
  count_le := by
    have := h.count_le
    simpa using this
  fits := by
    have := h.fits
    simpa using this
  header := by
    rw [writeBlock_block, bytesAt_splice_of_disjoint _ (Or.inl (by omega)), h.header]
    simp
  content := by
    have hold := h.content
    have hinit : bytesAt (V.block b) 16 (init.length * 16) = init.flatMap encodeExtent := by
      have htake := congrArg (List.take (init.length * 16)) hold
      rw [take_bytesAt _ _ (by simp), List.flatMap_append,
        List.take_left' (length_flatMap_encodeExtent init)] at htake
      exact htake
    rw [writeBlock_block, List.length_append, List.length_singleton, Nat.add_mul, Nat.one_mul,
      bytesAt_add, bytesAt_splice_of_disjoint _ (Or.inl le_rfl), hinit, bytesAt_splice_extent,
      List.flatMap_append]
    simp
  valid := by
    intro f hf
    rcases List.mem_append.mp hf with hf | hf
    · exact h.valid f (List.mem_append_left _ hf)
    · rw [List.mem_singleton] at hf
      subst hf
      have hv := h.valid e (List.mem_append_right _ (List.mem_singleton_self e))
      exact ⟨Nat.succ_pos _, hv.ge, hle⟩

omit hL in
/-- One more extent in a list block. -/
theorem ListBlock.snoc {b next d : Nat} {extents : List Extent}
    (h : ListBlock L V b extents next) (hd : L.IsData d)
    (hcount : extents.length < nyfsMaxExtentsPerBlock)
    (hfits : (extents.length + 1) * 16 + 16 ≤ L.blockSize) :
    ListBlock L ((V.writeBlock b (16 + extents.length * 16) (encodeExtent ⟨d, 1⟩)).writeBlock b 0
      (encodeExtentHeader ⟨nyfsExtentMagic, extents.length + 1, next⟩)) b
      (extents ++ [⟨d, 1⟩]) next where
  isData := h.isData
  nonempty := by simp
  count_le := by
    rw [List.length_append, List.length_singleton]
    exact hcount
  fits := by
    simp only [List.length_append, List.length_singleton]
    omega
  header := by
    rw [writeBlock_block, bytesAt_splice_header]
    simp
  content := by
    have hlen : (encodeExtentHeader ⟨nyfsExtentMagic, extents.length + 1, next⟩).length = 16 :=
      length_encodeExtentHeader _
    rw [writeBlock_block, writeBlock_block,
      bytesAt_splice_of_disjoint _ (Or.inr (by rw [hlen])), List.length_append,
      List.length_singleton, Nat.add_mul, Nat.one_mul, bytesAt_add,
      bytesAt_splice_of_disjoint _ (Or.inl le_rfl), h.content, bytesAt_splice_extent,
      List.flatMap_append]
    simp
  valid := by
    intro f hf
    rcases List.mem_append.mp hf with hf | hf
    · exact h.valid f hf
    · rw [List.mem_singleton] at hf
      subst hf
      exact Extent.Valid.single hd

omit hL in
/-- A list block linked to another one. -/
theorem ListBlock.link {b next next' : Nat} {extents : List Extent}
    (h : ListBlock L V b extents next) :
    ListBlock L (V.writeBlock b 0 (encodeExtentHeader ⟨nyfsExtentMagic, extents.length, next'⟩)) b
      extents next' where
  isData := h.isData
  nonempty := h.nonempty
  count_le := h.count_le
  fits := h.fits
  header := by
    rw [writeBlock_block, bytesAt_splice_header]
  content := by
    have hlen : (encodeExtentHeader ⟨nyfsExtentMagic, extents.length, next'⟩).length = 16 :=
      length_encodeExtentHeader _
    rw [writeBlock_block, bytesAt_splice_of_disjoint _ (Or.inr (by rw [hlen])), h.content]
  valid := h.valid

omit hL in
theorem ListBlock.congr {b next : Nat} {extents : List Extent} (h : ListBlock L V b extents next)
    (heq : V'.block b = V.block b) : ListBlock L V' b extents next :=
  ⟨h.isData, h.nonempty, h.count_le, h.fits, by rw [heq]; exact h.header,
    by rw [heq]; exact h.content, h.valid⟩

/-! ## The plan of a growing chain -/

/-- The end of a chain: the number of extents in its last list block and the block behind
the last extent. -/
structure Tail where
  count : Nat
  stop : Nat

/-- The end of a chain that has one. -/
def tailOf (segs : List Segment) : Option Tail :=
  segs.getLast?.bind (fun s =>
    s.extents.getLast?.map (fun e => ⟨s.extents.length, e.startBlock + e.length⟩))

/-- The list block that a new data block needs, and the end of the chain with it. -/
def planList (L : Layout) (bits : Nat → Bool) (d : Nat) : Option (List Nat × Tail) :=
  (firstClear bits L.totalBlocks 0).map (fun l => ([l], ⟨1, d + 1⟩))

/-- Where a new data block goes: into the last extent, into a new extent, or into a new list
block. -/
def planLast (L : Layout) (bits : Nat → Bool) (d : Nat) (t : Tail) : Option (List Nat × Tail) :=
  if t.stop = d then
    some ([], ⟨t.count, d + 1⟩)
  else if t.count < nyfsMaxExtentsPerBlock ∧ (t.count + 1) * 16 + 16 ≤ L.blockSize then
    some ([], ⟨t.count + 1, d + 1⟩)
  else
    planList L bits d

/-- The next data block of a chain, the list block that comes with it, and the end of the
chain with both; none when the disk is full. -/
def planOne (L : Layout) (bits : Nat → Bool) (tail : Option Tail) :
    Option (Nat × List Nat × Tail) :=
  (firstClear bits L.totalBlocks 0).bind (fun d =>
    (match tail with
      | none => planList L (mark bits [d]) d
      | some t => planLast L (mark bits [d]) d t).map (fun p => (d, p)))

/-- The next data blocks of a chain, each with the list block that comes with it; none when
the disk is full before. -/
def planMany (L : Layout) :
    (count : Nat) → (Nat → Bool) → Option Tail → Option (List (Nat × List Nat))
  | 0, _, _ => some []
  | count + 1, bits, tail =>
      (planOne L bits tail).bind (fun p =>
        (planMany L count (mark bits (p.1 :: p.2.1)) (some p.2.2)).map
          (fun ds => (p.1, p.2.1) :: ds))

omit hL in
/-- Two free blocks are room for the next data block of any chain. -/
theorem planOne_ne_none {bits : Nat → Bool} {a b : Nat} (ha : a < L.totalBlocks)
    (hb : b < L.totalBlocks) (hab : a ≠ b) (hfreeA : bits a = false) (hfreeB : bits b = false)
    (tail : Option Tail) : planOne L bits tail ≠ none := by
  cases hfirst : firstClear bits L.totalBlocks 0 with
  | none =>
      have hset := firstClear_none (j := a) hfirst (Nat.zero_le _) (by omega)
      rw [hfreeA] at hset
      cases hset
  | some d =>
      -- one of the two blocks is left for a list block
      have hlist : planList L (mark bits [d]) d ≠ none := by
        obtain ⟨c, hc, hfreeC⟩ : ∃ c, c < L.totalBlocks ∧ mark bits [d] c = false := by
          by_cases had : a = d
          · exact ⟨b, hb, by simp [mark, hfreeB, had ▸ hab.symm]⟩
          · exact ⟨a, ha, by simp [mark, hfreeA, had]⟩
        rw [planList]
        cases hsecond : firstClear (mark bits [d]) L.totalBlocks 0 with
        | none =>
            have hset := firstClear_none (j := c) hsecond (Nat.zero_le _) (by omega)
            rw [hfreeC] at hset
            cases hset
        | some l => simp
      rw [planOne, hfirst, Option.bind_some]
      cases tail with
      | none =>
          simpa using hlist
      | some t =>
          dsimp only
          rw [planLast]
          split
          next => simp
          next =>
            split
            next => simp
            next => simpa using hlist

/-- All blocks of a plan. -/
def planned (ds : List (Nat × List Nat)) : List Nat :=
  ds.flatMap (fun p => p.1 :: p.2)

omit hL in
theorem tailOf_append {front tail : List Segment} (h : tail ≠ []) :
    tailOf (front ++ tail) = tailOf tail := by
  obtain ⟨init, s, rfl⟩ := (List.eq_nil_or_concat' tail).resolve_left h
  rw [tailOf, tailOf, ← List.append_assoc, List.getLast?_concat, List.getLast?_concat]

/-! ## Appending a block -/

/-- The walk to the last list block. -/
theorem Chain.does_lastExtentBlock {front : List Segment} {s : Segment} {fuel : Nat}
    (h : Chain L V root (front ++ [s])) (hfuel : front.length < fuel) :
    Does L V (lastExtentBlock fuel root : NyfsM D _)
      (.ok (s.block, ⟨nyfsExtentMagic, s.extents.length, nyfsBlknoNone⟩)) V := by
  induction front generalizing root fuel with
  | nil =>
      obtain ⟨fuel, rfl⟩ := Nat.exists_eq_add_one_of_ne_zero (Nat.ne_of_gt hfuel)
      cases h with
      | cons hblock hrest =>
          cases hrest
          rw [lastExtentBlock]
          refine (hblock.does_header hL (by decide)).bind ?_
          rw [if_pos rfl]
          exact Does.pure _
  | cons t front ih =>
      obtain ⟨fuel, rfl⟩ := Nat.exists_eq_add_one_of_ne_zero (Nat.ne_zero_of_lt hfuel)
      cases h with
      | cons hblock hrest =>
          have hne := mt (hrest.root_eq_none hL).mp (by simp)
          rw [lastExtentBlock]
          refine (hblock.does_header hL (hrest.root_lt hL)).bind ?_
          rw [if_neg hne]
          exact ih hrest (by rw [List.length_cons] at hfuel; omega)

omit hL in
theorem does_ignoreStatus {α : Type} {m : NyfsM D α} {a : α} (hm : Does L V m (.ok a) V') :
    Does L V (ignoreStatus m) (.ok ()) V' :=
  hm.attempt_bind (Does.pure ())

/-- Writing the front of a block. -/
theorem does_writeBlock_front {b : Nat} {bytes : List UInt8} (hb : L.IsData b)
    (hlen : bytes.length ≤ L.blockSize) :
    Does L V (rawWrite (b * L.blockSize) bytes : NyfsM D _) (.ok ()) (V.writeBlock b 0 bytes) := by
  have hsize := hL.blockSize_ge
  have hwrite : Does L V (rawWrite (b * L.blockSize + 0) bytes : NyfsM D _) (.ok ())
      (V.writeBlock b 0 bytes) :=
    does_writeBlock hL hb (by omega) (by omega)
  rwa [Nat.add_zero] at hwrite

/-- A new list block for a data block, or a full disk and the data block given back. -/
theorem does_addExtentBlock {d : Nat} (hR : Ready L V) (hd : L.IsData d) :
    (∃ l V', firstClear V.blockBit L.totalBlocks 0 = some l ∧ L.IsData l ∧ V.blockBit l = false ∧
      Does L V (addExtentBlock d : NyfsM D _) (.ok l) V' ∧
      ListBlock L V' l [⟨d, 1⟩] nyfsBlknoNone ∧ Takes L V V' [l] [l]) ∨
    (firstClear V.blockBit L.totalBlocks 0 = none ∧
      Does L V (addExtentBlock d : NyfsM D _) (.error (.status .NdiskFull)) (V.dropBlock d)) := by
  have hsize := hL.blockSize_ge
  rcases hR.allocBlock (D := D) hL with ⟨l, hfirst, hl, hclear, halloc⟩ | ⟨hfirst, hfull⟩
  · refine Or.inl ⟨l, _, hfirst, hl, hclear, ?_, ListBlock.new (V := V.takeBlock l) hL hl hd, ?_⟩
    · refine halloc.attempt_bind ?_
      have hwrites : Does L (V.takeBlock l) (writeNewExtentBlock l d : NyfsM D _) (.ok ())
          (((V.takeBlock l).writeBlock l 0
            (encodeExtentHeader ⟨nyfsExtentMagic, 1, nyfsBlknoNone⟩)).writeBlock l 16
              (encodeExtent ⟨d, 1⟩)) := by
        refine Does.blockSize_bind ?_
        refine (does_writeBlock_front hL hl (by rw [length_encodeExtentHeader]; omega)).bind ?_
        exact does_writeBlock hL hl (by omega) (by rw [length_encodeExtent]; omega)
      exact hwrites.attempt_bind (Does.pure l)
    · have htake := Takes.take hL hR hl hclear
      have hwrite := (Takes.write htake.ready l 0
        (encodeExtentHeader ⟨nyfsExtentMagic, 1, nyfsBlknoNone⟩))
      have hwrite' := Takes.write hwrite.ready l 16 (encodeExtent ⟨d, 1⟩)
      exact ((htake.trans hwrite).trans hwrite').mono (by simp)
  · refine Or.inr ⟨hfirst, hfull.attempt_bind_error ?_⟩
    exact (does_ignoreStatus (does_freeBlock hL hd.lt)).bind (Does.fail _)

/-- The second chain continues the first one with the taken blocks. -/
structure Lengthens (L : Layout) (V : View) (root : Nat) (segs : List Segment) (V' : View)
    (root' : Nat) (segs' : List Segment) (taken touched : List Nat) : Prop where
  stream : Stream L V' root' segs'
  takes : Takes L V V' taken touched
  lists : listBlocks segs <+: listBlocks segs'
  datas : dataBlocks segs <+: dataBlocks segs'
  perm : (chainBlocks segs').Perm (taken ++ chainBlocks segs)
  root_eq : segs ≠ [] → root' = root

omit hL in
theorem Lengthens.refl (hS : Stream L V root segs) (hR : Ready L V) (touched : List Nat) :
    Lengthens L V root segs V root segs [] touched :=
  ⟨hS, Takes.refl hR touched, List.prefix_rfl, List.prefix_rfl, List.Perm.refl _, fun _ => rfl⟩

omit hL in
/-- All blocks of the longer chain are set. -/
theorem Lengthens.set {taken touched : List Nat}
    (h : Lengthens L V root segs V' root' segs' taken touched)
    (hset : ∀ b ∈ chainBlocks segs, V.blockBit b = true) :
    ∀ b ∈ chainBlocks segs', V'.blockBit b = true := by
  intro b hb
  rcases List.mem_append.mp (h.perm.mem_iff.mp hb) with hb | hb
  · exact h.takes.blockBit_of_mem hb
  · exact h.takes.blockBit_of_set (hset b hb)

omit hL in
theorem Lengthens.trans {taken taken' touched touched' : List Nat}
    (h : Lengthens L V root segs V' root' segs' taken touched)
    (h' : Lengthens L V' root' segs' V'' root'' segs'' taken' touched') :
    Lengthens L V root segs V'' root'' segs'' (taken ++ taken') (touched ++ touched') where
  stream := h'.stream
  takes := h.takes.trans h'.takes
  lists := h.lists.trans h'.lists
  datas := h.datas.trans h'.datas
  perm := by
    have hperm := h'.perm.trans (h.perm.append_left taken')
    rw [List.perm_iff_count] at hperm ⊢
    intro b
    have hcount := hperm b
    simp only [List.count_append] at hcount ⊢
    omega
  root_eq hne := by
    have hne' : segs' ≠ [] := by
      intro hnil
      have hlists := h.lists
      rw [hnil, listBlocks, listBlocks, List.map_nil, List.prefix_nil, List.map_eq_nil_iff] at hlists
      exact hne hlists
    rw [h'.root_eq hne', h.root_eq hne]

omit hL in
/-- The further data blocks are not blocks of the shorter chain. -/
theorem Lengthens.notMem_of_more {taken touched more : List Nat}
    (h : Lengthens L V root segs V' root' segs' taken touched)
    (hmore : dataBlocks segs ++ more = dataBlocks segs') {b : Nat} (hb : b ∈ more) :
    b ∉ chainBlocks segs := by
  have hnodup := h.stream.nodup
  rw [chainBlocks, ← hmore] at hnodup
  intro hmem
  rcases List.mem_append.mp hmem with hmem | hmem
  · exact (List.nodup_append.mp hnodup).2.2 b (h.lists.subset hmem) b
      (List.mem_append_right _ hb) rfl
  · exact (List.nodup_append.mp (List.nodup_append.mp hnodup).2.1).2.2 b hmem b hb rfl

omit hL in
theorem Lengthens.mono {taken touched touched' : List Nat}
    (h : Lengthens L V root segs V' root' segs' taken touched) (hsub : touched ⊆ touched') :
    Lengthens L V root segs V' root' segs' taken touched' :=
  { h with takes := h.takes.mono hsub }

omit hL in
/-- A chain whose last list block has been continued with one data block. -/
theorem Stream.continueLast {front tail : List Segment} {b d : Nat} {extents : List Extent}
    {ls touched : List Nat} (hS : Stream L V root (front ++ [⟨b, extents⟩]))
    (hset : ∀ c ∈ chainBlocks (front ++ [⟨b, extents⟩]), V.blockBit c = true)
    (hfront : ∀ c ∈ listBlocks front, V'.block c = V.block c) (htail : Chain L V' b tail)
    (hdatas : dataBlocks tail = coveredBlocks extents ++ [d]) (hlists : listBlocks tail = b :: ls)
    (htakes : Takes L V V' (d :: ls) touched) :
    Lengthens L V root (front ++ [⟨b, extents⟩]) V' root (front ++ tail) (d :: ls) touched := by
  have hperm : (chainBlocks (front ++ tail)).Perm
      ((d :: ls) ++ chainBlocks (front ++ [⟨b, extents⟩])) := by
    rw [List.perm_iff_count]
    intro c
    simp only [chainBlocks, listBlocks_append, dataBlocks_append, hdatas, hlists,
      List.count_append, List.count_cons, List.count_nil]
    simp only [listBlocks, dataBlocks, List.map_cons, List.map_nil, List.flatMap_cons,
      List.flatMap_nil, List.append_nil, List.count_cons, List.count_nil]
    omega
  have hnodup : (chainBlocks (front ++ tail)).Nodup := by
    rw [hperm.nodup_iff]
    refine List.Nodup.append htakes.nodup hS.nodup ?_
    intro c hc hc'
    have hbit := (htakes.fresh c hc).2
    rw [hset c hc'] at hbit
    cases hbit
  obtain ⟨mid, hmid, hcont⟩ := hS.chain.split
  have hmid_eq : mid = b := by
    cases hmid
    rfl
  subst hmid_eq
  refine ⟨⟨hcont V' tail hfront htail, hnodup⟩, htakes, ?_, ?_, hperm, fun _ => rfl⟩
  · rw [listBlocks_append, listBlocks_append, hlists]
    exact ⟨ls, by simp [listBlocks]⟩
  · rw [dataBlocks_append, dataBlocks_append, hdatas]
    exact ⟨[d], by simp [dataBlocks]⟩

/-- A new extent behind the others: in the last list block or in a new one. -/
theorem does_appendExtent {b d : Nat} {extents : List Extent} (hR : Ready L V)
    (hblock : ListBlock L V b extents nyfsBlknoNone) (hset : V.blockBit b = true)
    (hd : L.IsData d) :
    (∃ tail ls t V', (if extents.length < nyfsMaxExtentsPerBlock ∧
          (extents.length + 1) * 16 + 16 ≤ L.blockSize then some ([], ⟨extents.length + 1, d + 1⟩)
        else planList L V.blockBit d) = some (ls, t) ∧
      Does L V (appendToLast.appendExtent d b
        ⟨nyfsExtentMagic, extents.length, nyfsBlknoNone⟩ L.blockSize : NyfsM D _) (.ok ()) V' ∧
      Chain L V' b tail ∧ tailOf tail = some t ∧ dataBlocks tail = coveredBlocks extents ++ [d] ∧
      listBlocks tail = b :: ls ∧ Takes L V V' ls (b :: ls)) ∨
    ((if extents.length < nyfsMaxExtentsPerBlock ∧
          (extents.length + 1) * 16 + 16 ≤ L.blockSize then some ([], ⟨extents.length + 1, d + 1⟩)
        else planList L V.blockBit d) = none ∧
      Does L V (appendToLast.appendExtent d b
        ⟨nyfsExtentMagic, extents.length, nyfsBlknoNone⟩ L.blockSize : NyfsM D _)
        (.error (.status .NdiskFull)) (V.dropBlock d)) := by
  have hsize := hL.blockSize_ge
  rw [appendToLast.appendExtent]
  by_cases hroom : extents.length < nyfsMaxExtentsPerBlock ∧
      (extents.length + 1) * 16 + 16 ≤ L.blockSize
  · left
    rw [if_pos hroom, if_pos hroom]
    refine ⟨[⟨b, extents ++ [⟨d, 1⟩]⟩], [], _, _, rfl, ?_,
      Chain.cons (hblock.snoc hd hroom.1 hroom.2) Chain.nil, ?_, ?_, rfl, ?_⟩
    · dsimp only
      rw [Nat.add_assoc]
      refine (does_writeBlock hL hblock.isData (by omega)
        (by rw [length_encodeExtent]; omega)).attempt_bind ?_
      exact does_writeBlock_front hL hblock.isData (by rw [length_encodeExtentHeader]; omega)
    · simp [tailOf]
    · simp [dataBlocks, coveredBlocks, Extent.blocks]
    · have hwrite := Takes.write hR b (16 + extents.length * 16) (encodeExtent ⟨d, 1⟩)
      have hwrite' := Takes.write hwrite.ready b 0
        (encodeExtentHeader ⟨nyfsExtentMagic, extents.length + 1, nyfsBlknoNone⟩)
      exact (hwrite.trans hwrite').mono (by simp)
  · rw [if_neg hroom, if_neg hroom, planList]
    rcases does_addExtentBlock (D := D) hL hR hd with
      ⟨l, V₁, hfirst, hl, hclear, hadd, hnew, htakes⟩ | ⟨hfirst, hfull⟩
    · left
      rw [hfirst]
      have hbl : b ≠ l := by
        rintro rfl
        rw [hset] at hclear
        cases hclear
      have hold : ListBlock L V₁ b extents nyfsBlknoNone :=
        hblock.congr (htakes.block b (by simpa using hbl))
      have hlink : ListBlock L (V₁.writeBlock b 0
          (encodeExtentHeader ⟨nyfsExtentMagic, extents.length, l⟩)) b extents l :=
        hold.link
      have hnew' : ListBlock L (V₁.writeBlock b 0
          (encodeExtentHeader ⟨nyfsExtentMagic, extents.length, l⟩)) l [⟨d, 1⟩] nyfsBlknoNone :=
        hnew.congr (Function.update_of_ne hbl.symm ..)
      refine ⟨[⟨b, extents⟩, ⟨l, [⟨d, 1⟩]⟩], [l], _, _, rfl, ?_,
        Chain.cons hlink (Chain.cons hnew' Chain.nil), rfl, ?_, rfl, ?_⟩
      · refine hadd.bind ?_
        exact does_writeBlock_front hL hblock.isData (by rw [length_encodeExtentHeader]; omega)
      · simp [dataBlocks, coveredBlocks, Extent.blocks]
      · have hwrite := Takes.write htakes.ready b 0
          (encodeExtentHeader ⟨nyfsExtentMagic, extents.length, l⟩)
        exact (htakes.trans hwrite).mono (by simp)
    · rw [hfirst]
      exact Or.inr ⟨rfl, hfull.bind_error⟩

/-- The new data block goes behind the last one, or the disk is full and it is given
back. -/
theorem does_appendToLast {b d : Nat} {extents : List Extent} (hR : Ready L V)
    (hblock : ListBlock L V b extents nyfsBlknoNone) (hset : V.blockBit b = true)
    (hd : L.IsData d) :
    (∃ tail ls t V', (tailOf [⟨b, extents⟩]).bind (planLast L V.blockBit d) = some (ls, t) ∧
      Does L V (appendToLast d b ⟨nyfsExtentMagic, extents.length, nyfsBlknoNone⟩
        extents : NyfsM D _) (.ok ()) V' ∧
      Chain L V' b tail ∧ tailOf tail = some t ∧ dataBlocks tail = coveredBlocks extents ++ [d] ∧
      listBlocks tail = b :: ls ∧ Takes L V V' ls (b :: ls)) ∨
    ((tailOf [⟨b, extents⟩]).bind (planLast L V.blockBit d) = none ∧
      Does L V (appendToLast d b ⟨nyfsExtentMagic, extents.length, nyfsBlknoNone⟩ extents :
        NyfsM D _) (.error (.status .NdiskFull)) (V.dropBlock d)) := by
  have hlt := hL.totalBlocks_lt
  obtain ⟨init, e, rfl⟩ : ∃ init e, extents = init ++ [e] :=
    (List.eq_nil_or_concat' extents).resolve_left hblock.nonempty
  have hlast : (init ++ [e]).getLast? = some e := List.getLast?_concat
  have hv := hblock.valid e (List.mem_append_right _ (List.mem_singleton_self e))
  have hend := hv.le
  have hmod : (e.startBlock + e.length) % 2 ^ 64 = e.startBlock + e.length :=
    Nat.mod_eq_of_lt (by omega)
  have hmod' : (e.length + 1) % 2 ^ 64 = e.length + 1 := Nat.mod_eq_of_lt (by omega)
  have hplan : (tailOf [⟨b, init ++ [e]⟩]).bind (planLast L V.blockBit d) =
      planLast L V.blockBit d ⟨(init ++ [e]).length, e.startBlock + e.length⟩ := by
    rw [tailOf, List.getLast?_singleton, Option.bind_some, hlast, Option.map_some,
      Option.bind_some]
  rw [hplan, planLast]
  by_cases hmerge : e.startBlock + e.length = d
  · left
    rw [if_pos hmerge]
    have hfits := hblock.fits
    rw [List.length_append, List.length_singleton] at hfits
    refine ⟨[⟨b, init ++ [{ e with length := e.length + 1 }]⟩], [], _, _, rfl, ?_,
      Chain.cons (hblock.merge (by rw [hmerge]; exact hd.lt)) Chain.nil, ?_, ?_, rfl, ?_⟩
    · refine Does.blockSize_bind ?_
      rw [hlast]
      dsimp only
      rw [hmod, if_pos hmerge, hmod', List.length_append, List.length_singleton,
        Nat.add_sub_cancel, Nat.add_assoc]
      exact does_writeBlock hL hblock.isData (by omega) (by rw [length_encodeExtent]; omega)
    · rw [tailOf, List.getLast?_singleton, Option.bind_some, List.getLast?_concat, ← hmerge]
      simp [Nat.add_assoc]
    · simp [dataBlocks, coveredBlocks, Extent.blocks, List.range'_concat, hmerge]
    · exact Takes.write hR b _ _
  · have hstep : appendToLast d b ⟨nyfsExtentMagic, (init ++ [e]).length, nyfsBlknoNone⟩
        (init ++ [e]) = (Eff.gets Volume.blockSize >>= fun bs => appendToLast.appendExtent d b
          ⟨nyfsExtentMagic, (init ++ [e]).length, nyfsBlknoNone⟩ bs : NyfsM D _) := by
      rw [appendToLast, hlast]
      simp only [hmod, if_neg hmerge]
    rw [hstep, if_neg hmerge]
    rcases does_appendExtent (D := D) hL hR hblock hset hd with
      ⟨tail, ls, t, V', hplan, hdoes, hrest⟩ | ⟨hplan, hfull⟩
    · exact Or.inl ⟨tail, ls, t, V', hplan, Does.blockSize_bind hdoes, hrest⟩
    · exact Or.inr ⟨hplan, Does.blockSize_bind hfull⟩

/-- One more data block at the end of a stream, or a full disk and nothing changed. -/
theorem Stream.appendOne (hS : Stream L V root segs) (hR : Ready L V)
    (hset : ∀ b ∈ chainBlocks segs, V.blockBit b = true) :
    (∃ root' segs' V' d ls t, planOne L V.blockBit (tailOf segs) = some (d, ls, t) ∧
      Does L V (extentAppendOne root : NyfsM D _) (.ok root') V' ∧
      Lengthens L V root segs V' root' segs' (d :: ls) (listBlocks segs') ∧
      tailOf segs' = some t ∧ dataBlocks segs' = dataBlocks segs ++ [d]) ∨
    (planOne L V.blockBit (tailOf segs) = none ∧
      Does L V (extentAppendOne root : NyfsM D _) (.error (.status .NdiskFull)) V) := by
  rcases hR.allocBlock (D := D) hL with ⟨d, hfirst, hd, hclear, halloc⟩ | ⟨hfirst, hfull⟩
  · have htake := Takes.take hL hR hd hclear
    rw [planOne, hfirst, Option.bind_some, ← htake.mark_eq]
    have hback := hR.takeBlock_dropBlock hL hclear
    by_cases hnil : segs = []
    · -- the first block of the stream comes with the first list block
      subst hnil
      have hroot : root = nyfsBlknoNone := (hS.chain.root_eq_none hL).mpr rfl
      subst hroot
      change (∃ root' segs' V' d' ls t, (planList L (V.takeBlock d).blockBit d).map (fun p => (d, p)) =
        some (d', ls, t) ∧ _) ∨ (planList L (V.takeBlock d).blockBit d).map (fun p => (d, p)) = none ∧ _
      rw [planList]
      rcases does_addExtentBlock (D := D) hL htake.ready hd with
        ⟨l, V₁, hfirst', hl, hclear', hadd, hnew, htakes⟩ | ⟨hfirst', hfull⟩
      · rw [hfirst']
        have hchain : Chain L V₁ l [⟨l, [⟨d, 1⟩]⟩] := Chain.cons hnew Chain.nil
        have hall : Takes L V V₁ [d, l] [l] := htake.trans htakes
        have hblocks : chainBlocks [⟨l, [⟨d, 1⟩]⟩] = [l, d] := by
          simp [chainBlocks, listBlocks, dataBlocks, coveredBlocks, Extent.blocks]
        refine Or.inl ⟨l, [⟨l, [⟨d, 1⟩]⟩], V₁, d, [l], _, rfl, ?_,
          ⟨⟨hchain, ?_⟩, hall, ?_, ?_, ?_, ?_⟩, rfl, ?_⟩
        · refine halloc.bind ?_
          rw [if_pos rfl]
          exact hadd
        · rw [hblocks]
          exact (List.Perm.swap d l []).nodup_iff.mpr hall.nodup
        · exact List.nil_prefix
        · exact List.nil_prefix
        · rw [hblocks]
          exact List.Perm.swap d l []
        · intro h
          exact absurd rfl h
        · simp [dataBlocks, coveredBlocks, Extent.blocks]
      · rw [hfirst']
        refine Or.inr ⟨rfl, halloc.bind ?_⟩
        rw [if_pos rfl]
        rw [hback] at hfull
        exact hfull
    · obtain ⟨front, ⟨b, extents⟩, rfl⟩ : ∃ front s, segs = front ++ [s] :=
        (List.eq_nil_or_concat' segs).resolve_left hnil
      have hroot : root ≠ nyfsBlknoNone := mt (hS.chain.root_eq_none hL).mp hnil
      have hchain : Chain L (V.takeBlock d) root (front ++ [⟨b, extents⟩]) :=
        hS.chain.congr (fun _ _ => rfl)
      have hlengths := (hS.lengths hL).1
      have hlt := hL.totalBlocks_lt
      rw [List.length_append, List.length_singleton] at hlengths
      have hfuel : front.length < linkFuel := by
        rw [linkFuel]
        omega
      have hlast := hchain.does_lastExtentBlock (D := D) hL hfuel
      have hblock : ListBlock L (V.takeBlock d) b extents nyfsBlknoNone := by
        obtain ⟨mid, hmid, -⟩ := hchain.split
        cases hmid with
        | cons hblock hrest =>
            cases hrest
            exact hblock
      have hbset : (V.takeBlock d).blockBit b = true :=
        htake.blockBit_of_set (hset b (by simp [chainBlocks, listBlocks]))
      have hstart : ∀ {r : Except Stop Nat} {V' : View},
          Does L (V.takeBlock d) (appendToLast d b
            ⟨nyfsExtentMagic, extents.length, nyfsBlknoNone⟩ extents >>= fun _ => pure root :
              NyfsM D Nat) r V' → Does L V (extentAppendOne root : NyfsM D _) r V' := by
        intro r V' hdoes
        refine halloc.bind ?_
        rw [if_neg hroot]
        exact hlast.attempt_bind ((hblock.does_extents hL).attempt_bind hdoes)
      obtain ⟨t₀, ht₀⟩ : ∃ t₀, tailOf [⟨b, extents⟩] = some t₀ := by
        obtain ⟨init, e, rfl⟩ := (List.eq_nil_or_concat' extents).resolve_left hblock.nonempty
        exact ⟨_, by rw [tailOf, List.getLast?_singleton, Option.bind_some, List.getLast?_concat,
          Option.map_some]⟩
      rw [tailOf_append (List.cons_ne_nil _ _), ht₀]
      rcases does_appendToLast (D := D) hL htake.ready hblock hbset hd with
        ⟨tail, ls, t, V', hplan, hdoes, htail, ht, hdatas, hlists, htakes⟩ | ⟨hplan, hfull⟩
      · left
        rw [ht₀, Option.bind_some] at hplan
        have hne : tail ≠ [] := by
          rintro rfl
          cases ht
        have hall : Takes L V V' (d :: ls) (b :: ls) := htake.trans htakes
        have hfront : ∀ c ∈ listBlocks front, V'.block c = V.block c := by
          intro c hc
          refine hall.block c ?_
          intro hmem
          rcases List.mem_cons.mp hmem with rfl | hmem
          · have hnodup := hS.nodup
            rw [chainBlocks, listBlocks_append] at hnodup
            have hlists := (List.nodup_append.mp (List.nodup_append.mp hnodup).1).2.2
            exact hlists c hc c (by simp [listBlocks]) rfl
          · have hbit := (hall.fresh c (List.mem_cons_of_mem _ hmem)).2
            rw [hset c (by simp [chainBlocks, listBlocks_append, hc])] at hbit
            cases hbit
        have hlong := hS.continueLast hset hfront htail hdatas hlists hall
        refine ⟨root, front ++ tail, V', d, ls, t, ?_, hstart (hdoes.bind (Does.pure root)),
          hlong.mono ?_, ?_, ?_⟩
        · dsimp only
          rw [hplan, Option.map_some]
        · rw [listBlocks_append, hlists]
          exact List.subset_append_right _ _
        · rw [tailOf_append hne, ht]
        · rw [dataBlocks_append, dataBlocks_append, hdatas]
          simp [dataBlocks]
      · rw [ht₀, Option.bind_some] at hplan
        rw [hback] at hfull
        refine Or.inr ⟨?_, hstart hfull.bind_error⟩
        dsimp only
        rw [hplan, Option.map_none]
  · refine Or.inr ⟨?_, hfull.bind_error⟩
    rw [planOne, hfirst, Option.bind_none]

end Append

/-! ## Writing -/

/-- Writing inside one block of a stream splices the stream. -/
theorem streamAt_writeBlock {blocks : List Nat} {off b : Nat} {bytes : List UInt8}
    (hnodup : blocks.Nodup) (hb : blocks[off / L.blockSize]? = some b) (hne : b ≠ 0)
    (hlen : off % L.blockSize + bytes.length ≤ L.blockSize) (hs : 0 < L.blockSize) :
    streamAt L (V.writeBlock b (off % L.blockSize) bytes) blocks =
      splice (streamAt L V blocks) off bytes := by
  funext o
  have hoff := Nat.div_add_mod off L.blockSize
  have ho := Nat.div_add_mod o L.blockSize
  have hmod := Nat.mod_lt o hs
  by_cases hquot : o / L.blockSize = off / L.blockSize
  · have hget : blocks.getD (o / L.blockSize) 0 = b := by
      rw [hquot, List.getD_eq_getElem?_getD, hb]
      rfl
    rw [hquot] at ho
    simp only [streamAt, hget, writeBlock_block, splice]
    by_cases hlt : o < off
    · rw [if_pos (by omega), if_pos hlt]
    · rw [if_neg (by omega), if_neg hlt]
      congr 1
      omega
  · have hget : blocks.getD (o / L.blockSize) 0 ≠ b := by
      rw [List.getD_eq_getElem?_getD]
      cases hcase : blocks[o / L.blockSize]? with
      | none => exact hne.symm
      | some c =>
          intro hcb
          rw [Option.getD_some] at hcb
          subst hcb
          obtain ⟨hlt, hc⟩ := List.getElem?_eq_some_iff.mp hcase
          obtain ⟨hlt', hc'⟩ := List.getElem?_eq_some_iff.mp hb
          exact hquot ((hnodup.getElem_inj_iff).mp (hc.trans hc'.symm))
    have hsame : streamAt L (V.writeBlock b (off % L.blockSize) bytes) blocks o =
        streamAt L V blocks o := by
      simp only [streamAt]
      rw [View.writeBlock]
      exact congrFun (Function.update_of_ne hget ..) _
    rw [hsame]
    rcases Nat.lt_or_gt_of_ne hquot with hlt | hgt
    · have hle : L.blockSize * (o / L.blockSize + 1) ≤ L.blockSize * (off / L.blockSize) :=
        Nat.mul_le_mul_left _ hlt
      rw [Nat.mul_add, Nat.mul_one] at hle
      rw [splice_of_lt _ _ (by omega)]
    · have hle : L.blockSize * (off / L.blockSize + 1) ≤ L.blockSize * (o / L.blockSize) :=
        Nat.mul_le_mul_left _ hgt
      rw [Nat.mul_add, Nat.mul_one] at hle
      rw [splice_of_ge _ (by omega)]

/-- Only the blocks of a stream matter for its bytes. -/
theorem streamAt_congr {blocks : List Nat}
    (h : ∀ b ∈ blocks, V'.block b = V.block b) (h0 : V'.block 0 = V.block 0) :
    streamAt L V' blocks = streamAt L V blocks := by
  funext o
  unfold streamAt
  rw [List.getD_eq_getElem?_getD]
  cases hcase : blocks[o / L.blockSize]? with
  | none => exact congrFun h0 _
  | some c => exact congrFun (h c (List.mem_of_getElem? hcase)) _

/-- Inside a stream the block 0 does not matter either. -/
theorem streamAt_congr_of_lt {blocks : List Nat} (h : ∀ b ∈ blocks, V'.block b = V.block b) {o : Nat}
    (ho : o < blocks.length * L.blockSize) : streamAt L V' blocks o = streamAt L V blocks o := by
  have hdiv : o / L.blockSize < blocks.length := Nat.div_lt_of_lt_mul (by rwa [Nat.mul_comm])
  rw [streamAt, streamAt, List.getD_eq_getElem?_getD, List.getElem?_eq_getElem hdiv]
  exact congrFun (h _ (List.getElem_mem hdiv)) _

/-- Blocks behind the end do not matter for the bytes before it. -/
theorem streamAt_append_left (V : View) {blocks : List Nat} (more : List Nat) {o : Nat}
    (ho : o < blocks.length * L.blockSize) :
    streamAt L V (blocks ++ more) o = streamAt L V blocks o := by
  have hdiv : o / L.blockSize < blocks.length := Nat.div_lt_of_lt_mul (by rwa [Nat.mul_comm])
  rw [streamAt, streamAt, List.getD_eq_getElem?_getD, List.getD_eq_getElem?_getD,
    List.getElem?_append_left hdiv]

/-- A splice stays one when the stream is seen with further blocks that have not
changed. -/
theorem streamAt_splice_append {blocks more : List Nat} {off : Nat} {bytes : List UInt8}
    (hs : 0 < L.blockSize) (h : streamAt L V' blocks = splice (streamAt L V blocks) off bytes)
    (hle : off + bytes.length ≤ blocks.length * L.blockSize)
    (hmore : ∀ b ∈ more, V'.block b = V.block b) (h0 : V'.block 0 = V.block 0) :
    streamAt L V' (blocks ++ more) = splice (streamAt L V (blocks ++ more)) off bytes := by
  funext o
  by_cases ho : o < blocks.length * L.blockSize
  · rw [streamAt_append_left V' more ho, h]
    simp only [splice, streamAt_append_left V more ho]
  · rw [splice_of_ge _ (by omega), streamAt, streamAt, List.getD_eq_getElem?_getD]
    have hdiv : blocks.length ≤ o / L.blockSize :=
      (Nat.le_div_iff_mul_le hs).mpr (Nat.not_lt.mp ho)
    rw [List.getElem?_append_right hdiv]
    cases hcase : more[o / L.blockSize - blocks.length]? with
    | none => exact congrFun h0 _
    | some c => exact congrFun (hmore c (List.mem_of_getElem? hcase)) _

section Writing

variable (hL : L.Valid)

include hL

omit hL in
theorem length_planMany {count : Nat} {bits : Nat → Bool} {tail : Option Tail}
    {ds : List (Nat × List Nat)} (h : planMany L count bits tail = some ds) :
    ds.length = count := by
  induction count generalizing bits tail ds with
  | zero =>
      cases h
      rfl
  | succ n ih =>
      rw [planMany, Option.bind_eq_some_iff] at h
      obtain ⟨p, -, h⟩ := h
      obtain ⟨ds', hrest, rfl⟩ := Option.map_eq_some_iff.mp h
      rw [List.length_cons, ih hrest]

/-- The chain grows as planned, or it grows until the disk is full. -/
theorem Stream.grow (count : Nat) (hS : Stream L V root segs) (hR : Ready L V)
    (hset : ∀ b ∈ chainBlocks segs, V.blockBit b = true) :
    ∃ res root' segs' V' taken,
      Does L V (extentGrow count root : NyfsM D _) (.ok (res, root')) V' ∧
      Lengthens L V root segs V' root' segs' taken (listBlocks segs') ∧
      ((∃ ds, planMany L count V.blockBit (tailOf segs) = some ds ∧ res = .ok () ∧
          dataBlocks segs' = dataBlocks segs ++ ds.map Prod.fst ∧ taken = planned ds) ∨
        (planMany L count V.blockBit (tailOf segs) = none ∧ res = .error .NdiskFull ∧
          (planOne L V.blockBit (tailOf segs) = none → V' = V ∧ root' = root ∧ segs' = segs) ∧
          (planOne L V.blockBit (tailOf segs) ≠ none → taken ≠ []))) := by
  induction count generalizing V root segs with
  | zero =>
      exact ⟨.ok (), root, segs, V, [], Does.pure _, Lengthens.refl hS hR _,
        Or.inl ⟨[], rfl, rfl, (List.append_nil _).symm, rfl⟩⟩
  | succ n ih =>
      rcases hS.appendOne (D := D) hL hR hset with
        ⟨root₁, segs₁, V₁, d, ls, t, hplan, hdoes, hlong, htail, hdata⟩ | ⟨hplan, hfull⟩
      · obtain ⟨res, root₂, segs₂, V₂, taken₂, hdoes₂, hlong₂, hres⟩ :=
          ih hlong.stream hlong.takes.ready (hlong.set hset)
        have hstep : planMany L (n + 1) V.blockBit (tailOf segs) =
            (planMany L n V₁.blockBit (tailOf segs₁)).map (fun ds => (d, ls) :: ds) := by
          rw [planMany, hplan, Option.bind_some, ← hlong.takes.mark_eq, htail]
        refine ⟨res, root₂, segs₂, V₂, (d :: ls) ++ taken₂, hdoes.attempt_bind hdoes₂, ?_, ?_⟩
        · exact (hlong.trans hlong₂).mono
            (List.append_subset.mpr ⟨hlong₂.lists.subset, List.Subset.refl _⟩)
        · rw [hstep]
          rcases hres with ⟨ds, hrest, hok, hds, rfl⟩ | ⟨hrest, herr, -⟩
          · refine Or.inl ⟨(d, ls) :: ds, by rw [hrest, Option.map_some], hok, ?_, ?_⟩
            · rw [hds, hdata, List.append_assoc, List.singleton_append, List.map_cons]
            · simp [planned]
          · refine Or.inr ⟨by rw [hrest, Option.map_none], herr, ?_, ?_⟩
            · intro hnone
              rw [hplan] at hnone
              cases hnone
            · exact fun _ => List.cons_ne_nil _ _
      · refine ⟨.error .NdiskFull, root, segs, V, [], hfull.attempt_bind_error (Does.pure _),
          Lengthens.refl hS hR _, Or.inr ⟨?_, rfl, fun _ => ⟨rfl, rfl, rfl⟩, ?_⟩⟩
        · rw [planMany, hplan, Option.bind_none]
        · exact fun hne => absurd hplan hne

/-- The write loop splices what it has written; it stops at the end of the stream. -/
theorem Stream.does_writeLoop {rounds : Nat} {bytes : List UInt8}
    (hS : Stream L V root segs) (off : Nat) (hR : Ready L V) (hrounds : bytes.length ≤ rounds) :
    ∃ r V' k, Does L V (extentWriteLoop root rounds off bytes : NyfsM D _) r V' ∧
      Takes L V V' [] (dataBlocks segs) ∧
      streamAt L V' (dataBlocks segs) =
        splice (streamAt L V (dataBlocks segs)) off (bytes.take k) ∧
      ((r = .ok () ∧ bytes.take k = bytes ∧
          (bytes ≠ [] → off + bytes.length ≤ capacity L segs)) ∨
        (r = .error (.status .NnotFound) ∧ capacity L segs < off + bytes.length ∧
          k = capacity L segs - off)) := by
  have hs : 0 < L.blockSize := by
    have := hL.blockSize_ge
    omega
  induction rounds generalizing V off bytes with
  | zero =>
      obtain rfl : bytes = [] := List.eq_nil_of_length_eq_zero (by omega)
      refine ⟨_, V, 0, Does.pure (), Takes.refl hR _, ?_, Or.inl ⟨rfl, rfl, fun h => absurd rfl h⟩⟩
      rw [List.take_nil, splice_nil]
  | succ rounds ih =>
      by_cases hlen : bytes.length = 0
      · obtain rfl : bytes = [] := List.eq_nil_of_length_eq_zero hlen
        refine ⟨.ok (), V, 0, ?_, Takes.refl hR _, ?_,
          Or.inl ⟨rfl, rfl, fun h => absurd rfl h⟩⟩
        · rw [extentWriteLoop, if_pos hlen]
          exact Does.pure ()
        · rw [List.take_nil, splice_nil]
      · by_cases hin : off / L.blockSize < (dataBlocks segs).length
        · have hcap := hS.capacity_lt hL
          have hend := block_end_le_capacity hs hin
          have hmod := Nat.mod_lt off hs
          obtain ⟨b, hb⟩ : ∃ b, (dataBlocks segs)[off / L.blockSize]? = some b :=
            ⟨_, List.getElem?_eq_getElem hin⟩
          have hresolve := hS.resolve (D := D) hL (off / L.blockSize)
          rw [hb] at hresolve
          have hmem := List.mem_of_getElem? hb
          have hdata := hS.chain.isData _ (List.mem_append_right _ hmem)
          have hnodup := (List.nodup_append.mp hS.nodup).2.1
          obtain ⟨chunk, hchunk⟩ : ∃ chunk, chunk = min (L.blockSize - off % L.blockSize)
            bytes.length := ⟨_, rfl⟩
          have htake : (bytes.take chunk).length = chunk := by
            rw [List.length_take]
            omega
          have hwrite : Does L V (rawWrite (b * L.blockSize + off % L.blockSize)
              (bytes.take chunk) : NyfsM D _) (.ok ())
              (V.writeBlock b (off % L.blockSize) (bytes.take chunk)) :=
            does_writeBlock hL hdata hmod (by omega)
          have htakes := Takes.write hR b (off % L.blockSize) (bytes.take chunk)
          have hstream : streamAt L (V.writeBlock b (off % L.blockSize) (bytes.take chunk))
              (dataBlocks segs) = splice (streamAt L V (dataBlocks segs)) off (bytes.take chunk) :=
            streamAt_writeBlock hnodup hb (hdata.ne_zero hL) (by omega) hs
          have hS₁ : Stream L (V.writeBlock b (off % L.blockSize) (bytes.take chunk)) root segs := by
            refine hS.congr (fun c hc => ?_)
            refine Function.update_of_ne ?_ ..
            rintro rfl
            exact (List.nodup_append.mp hS.nodup).2.2 _ hc _ hmem rfl
          have hrest : (bytes.drop chunk).length ≤ rounds := by
            rw [List.length_drop]
            omega
          have hwrap : (off + chunk) % 2 ^ 64 = off + chunk := Nat.mod_eq_of_lt (by omega)
          obtain ⟨r, V', k, hdoes, htakes', hstream', hres⟩ := ih hS₁ (off + chunk) htakes.ready hrest
          refine ⟨r, V', chunk + k, ?_, ?_, ?_, ?_⟩
          · rw [extentWriteLoop, if_neg hlen]
            refine Does.blockSize_bind ?_
            dsimp only
            rw [← hchunk, hwrap]
            exact hresolve.bind (hwrite.bind hdoes)
          · exact (htakes.trans htakes').mono (by simp [hmem])
          · have happend := splice_append (streamAt L V (dataBlocks segs)) off (bytes.take chunk)
              ((bytes.drop chunk).take k)
            rw [htake] at happend
            rw [hstream', hstream, happend, List.take_add]
          · rcases hres with ⟨hok, hall, hle⟩ | ⟨herr, hlt, hk⟩
            · refine Or.inl ⟨hok, ?_, fun _ => ?_⟩
              · rw [List.take_add, hall, List.take_append_drop]
              · by_cases hrest : bytes.drop chunk = []
                · have := congrArg List.length hrest
                  rw [List.length_drop, List.length_nil] at this
                  omega
                · have := hle hrest
                  rw [List.length_drop] at this
                  omega
            · rw [List.length_drop] at hlt
              exact Or.inr ⟨herr, by omega, by omega⟩
        · have hcap := capacity_le_of_ge (L := L) (Nat.not_lt.mp hin)
          have hresolve := hS.resolve (D := D) hL (off / L.blockSize)
          rw [List.getElem?_eq_none (Nat.not_lt.mp hin)] at hresolve
          refine ⟨_, V, 0, ?_, Takes.refl hR _, ?_, Or.inr ⟨rfl, by omega, by omega⟩⟩
          · rw [extentWriteLoop, if_neg hlen]
            exact Does.blockSize_bind hresolve.bind_error
          · rw [List.take_zero, splice_nil]

/-- The number of blocks that a write needs beyond those of the stream. -/
def growthNeed (L : Layout) (segs : List Segment) (off size : Nat) : Nat :=
  (off + size + L.blockSize - 1) % 2 ^ 64 / L.blockSize - (dataBlocks segs).length

omit hL in
/-- A stream with the blocks that a write needs holds what is written. -/
theorem growthNeed_capacity {off size : Nat} {segs' : List Segment} {ds : List (Nat × List Nat)}
    (hs : 0 < L.blockSize) (hlt : off + size + L.blockSize - 1 < 2 ^ 64)
    (hlen : ds.length = growthNeed L segs off size)
    (hdata : dataBlocks segs' = dataBlocks segs ++ ds.map Prod.fst) :
    off + size ≤ capacity L segs' := by
  have hle : (off + size + L.blockSize - 1) / L.blockSize ≤ (dataBlocks segs').length := by
    rw [hdata, List.length_append, List.length_map, hlen, growthNeed, Nat.mod_eq_of_lt hlt]
    omega
  have hmul := Nat.mul_le_mul_right L.blockSize hle
  have hdiv := Nat.div_add_mod (off + size + L.blockSize - 1) L.blockSize
  have hmod := Nat.mod_lt (off + size + L.blockSize - 1) hs
  rw [Nat.mul_comm] at hdiv
  unfold capacity
  omega

/-- What a write to a stream comes to.  Everything is written; or the disk is full; or the
end of the range wraps around. -/
inductive WriteOutcome (L : Layout) (V : View) (root : Nat) (segs : List Segment) (off : Nat)
    (bytes : List UInt8) (V' : View) (root' : Nat) (segs' : List Segment) (taken : List Nat)
    (k : Nat) : Except Nstatus Nat → Prop
  | written (ds : List (Nat × List Nat))
      (hplan : planMany L (if bytes = [] then 0 else growthNeed L segs off bytes.length) V.blockBit
        (tailOf segs) = some ds)
      (hdata : dataBlocks segs' = dataBlocks segs ++ ds.map Prod.fst) (htaken : taken = planned ds)
      (hall : bytes.take k = bytes)
      (hle : bytes ≠ [] → off + bytes.length ≤ capacity L segs') :
      WriteOutcome L V root segs off bytes V' root' segs' taken k (.ok bytes.length)
  | full (hne : bytes ≠ [])
      (hplan : planMany L (growthNeed L segs off bytes.length) V.blockBit (tailOf segs) = none)
      (hk : k = 0)
      (hsame : planOne L V.blockBit (tailOf segs) = none → V' = V ∧ root' = root ∧ segs' = segs)
      (htaken : planOne L V.blockBit (tailOf segs) ≠ none → taken ≠ []) :
      WriteOutcome L V root segs off bytes V' root' segs' taken k (.error .NdiskFull)
  | wrapped (ds : List (Nat × List Nat)) (hne : bytes ≠ [])
      (hplan : planMany L (growthNeed L segs off bytes.length) V.blockBit (tailOf segs) = some ds)
      (hdata : dataBlocks segs' = dataBlocks segs ++ ds.map Prod.fst) (htaken : taken = planned ds)
      (hwrap : 2 ^ 64 ≤ off + bytes.length + L.blockSize - 1)
      (hlt : capacity L segs' < off + bytes.length) (hk : k = capacity L segs' - off) :
      WriteOutcome L V root segs off bytes V' root' segs' taken k (.error .NnotFound)

/-- A write grows the stream with fresh blocks and splices what it has written into it:
everything if it succeeds. -/
theorem Stream.writeAt (hS : Stream L V root segs) (hR : Ready L V)
    (hset : ∀ b ∈ chainBlocks segs, V.blockBit b = true) (off : Nat) (bytes : List UInt8) :
    ∃ res root' segs' V' taken k,
      Does L V (extentWriteAt root off bytes : NyfsM D _) (.ok (res, root')) V' ∧
      Lengthens L V root segs V' root' segs' taken (chainBlocks segs') ∧
      streamAt L V' (dataBlocks segs') =
        splice (streamAt L V (dataBlocks segs')) off (bytes.take k) ∧
      WriteOutcome L V root segs off bytes V' root' segs' taken k res := by
  have hs : 0 < L.blockSize := by
    have := hL.blockSize_ge
    omega
  by_cases hlen : bytes.length = 0
  · obtain rfl : bytes = [] := List.eq_nil_of_length_eq_zero hlen
    refine ⟨.ok 0, root, segs, V, [], 0, ?_, Lengthens.refl hS hR _, ?_,
      WriteOutcome.written [] rfl (List.append_nil _).symm rfl rfl (fun h => absurd rfl h)⟩
    · rw [extentWriteAt, if_pos hlen]
      exact Does.pure _
    · rw [List.take_nil, splice_nil]
  · have hne : bytes ≠ [] := fun h => hlen (congrArg List.length h)
    obtain ⟨grown, root₁, segs₁, V₁, taken, hgrow, hlong, hgrown⟩ :=
      hS.grow (D := D) hL (growthNeed L segs off bytes.length) hR hset
    have hstream : streamAt L V₁ (dataBlocks segs₁) = streamAt L V (dataBlocks segs₁) := by
      refine streamAt_congr (fun b hb => hlong.takes.block b (fun hmem => ?_))
        (hlong.takes.block 0 (fun hmem => ?_))
      · exact (List.nodup_append.mp hlong.stream.nodup).2.2 b hmem b hb rfl
      · exact (hlong.stream.chain.isData 0 (List.mem_append_left _ hmem)).ne_zero hL rfl
    rw [extentWriteAt, if_neg hlen]
    rcases hgrown with ⟨ds, hplan, rfl, hdata, htaken⟩ | ⟨hplan, rfl, hsame, htaken⟩
    · obtain ⟨r, V₂, k, hloop, htakes, hsplice, hres⟩ :=
        hlong.stream.does_writeLoop (D := D) hL off hlong.takes.ready
          (le_refl bytes.length)
      have hS₂ : Stream L V₂ root₁ segs₁ := by
        refine hlong.stream.congr (fun b hb => htakes.block b (fun hmem => ?_))
        exact (List.nodup_append.mp hlong.stream.nodup).2.2 b hb b hmem rfl
      have hlong₂ : Lengthens L V root segs V₂ root₁ segs₁ taken (chainBlocks segs₁) := by
        have hall := hlong.takes.trans htakes
        rw [List.append_nil] at hall
        exact { hlong with stream := hS₂, takes := hall }
      rw [hstream] at hsplice
      rcases hres with ⟨rfl, hall, hle⟩ | ⟨rfl, hlt, hk⟩
      · exact ⟨.ok bytes.length, root₁, segs₁, V₂, taken, k,
          Does.blockSize_bind ((hS.totalBlocks hL).attempt_bind (hgrow.bind
            (hloop.attempt_bind (Does.pure _)))), hlong₂, hsplice,
          WriteOutcome.written ds (by rw [if_neg hne]; exact hplan) hdata htaken hall hle⟩
      · refine ⟨.error .NnotFound, root₁, segs₁, V₂, taken, k,
          Does.blockSize_bind ((hS.totalBlocks hL).attempt_bind (hgrow.bind
            (hloop.attempt_bind_error (Does.pure _)))), hlong₂, hsplice,
          WriteOutcome.wrapped ds hne hplan hdata htaken ?_ hlt hk⟩
        by_contra hwrap
        have := growthNeed_capacity hs (by omega) (length_planMany hplan) hdata
        omega
    · refine ⟨.error .NdiskFull, root₁, segs₁, V₁, taken, 0,
        Does.blockSize_bind ((hS.totalBlocks hL).attempt_bind (hgrow.bind (Does.pure _))),
        hlong.mono (List.subset_append_left _ _), ?_,
        WriteOutcome.full hne hplan rfl hsame htaken⟩
      rw [List.take_zero, splice_nil, hstream]

/-- A write inside the stream succeeds and takes no block. -/
theorem Stream.writeAt_within (hS : Stream L V root segs) (hR : Ready L V) (off : Nat)
    {bytes : List UInt8} (hne : bytes ≠ []) (hle : off + bytes.length ≤ capacity L segs) :
    ∃ V', Does L V (extentWriteAt root off bytes : NyfsM D _) (.ok (.ok bytes.length, root)) V' ∧
      Stream L V' root segs ∧ Takes L V V' [] (dataBlocks segs) ∧
      streamAt L V' (dataBlocks segs) = splice (streamAt L V (dataBlocks segs)) off bytes := by
  have hlen : bytes.length ≠ 0 := fun h => hne (List.eq_nil_of_length_eq_zero h)
  have hsize := hL.blockSize_ge
  have hcap := hS.capacity_lt hL
  have hfirst : L.blockSize ≤ L.firstDataBlock * L.blockSize :=
    Nat.le_mul_of_pos_left _ hL.firstDataBlock_pos
  have hneeded : (off + bytes.length + L.blockSize - 1) % 2 ^ 64 / L.blockSize -
      (dataBlocks segs).length = 0 := by
    rw [Nat.mod_eq_of_lt (by omega), Nat.sub_eq_zero_iff_le]
    refine Nat.le_of_lt_succ ((Nat.div_lt_iff_lt_mul (by omega)).mpr ?_)
    rw [Nat.succ_mul]
    unfold capacity at hle
    omega
  obtain ⟨r, V', k, hloop, htakes, hsplice, hres⟩ :=
    hS.does_writeLoop (D := D) hL off hR (le_refl bytes.length)
  rcases hres with ⟨rfl, hall, -⟩ | ⟨-, hlt⟩
  · refine ⟨V', ?_, ?_, htakes, ?_⟩
    · rw [extentWriteAt, if_neg hlen]
      refine Does.blockSize_bind ((hS.totalBlocks hL).attempt_bind ?_)
      dsimp only
      rw [hneeded]
      exact (Does.pure _).bind (hloop.attempt_bind (Does.pure _))
    · refine hS.congr (fun b hb => htakes.block b (fun hmem => ?_))
      exact (List.nodup_append.mp hS.nodup).2.2 b hb b hmem rfl
    · rw [hsplice, hall]
  · omega

end Writing

end Nyfs
end Nyxis
