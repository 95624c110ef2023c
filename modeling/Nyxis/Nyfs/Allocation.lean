import Nyxis.Nyfs.View

/-!
# Block and inode accounting

{lit}`Ready` couples the bitmaps with the counters of the superblock and with the metadata
region.  {lit}`Takes` collects what a growing stream does to a view: which blocks it takes
and which blocks it writes to.

Main results:

- Theorem {lit}`Ready.allocBlock`: an allocation takes a clear data block or finds none.
- Theorem {lit}`Ready.takeBlock_dropBlock`: a block that is given back leaves no trace.
- Theorems {lit}`Takes.trans`, {lit}`Takes.take` and {lit}`Takes.write`.
-/

namespace Nyxis
namespace Nyfs

open Bitmap

variable {D : Type} [ReliableDevice D] {L : Layout} {V V' V'' : View}

/-! ## Counters -/

/-- The bitmaps agree with the counters and cover the metadata and the reserved inode. -/
structure Ready (L : Layout) (V : View) : Prop where
  metadata : ∀ b, b < L.firstDataBlock → V.blockBit b = true
  freeBlocks : V.freeBlocks = clearCount V.blockBit L.totalBlocks
  freeInodes : V.freeInodes = clearCount V.inodeBit L.inodeCount
  reserved : V.inodeBit 0 = true

theorem wrapSucc_of_lt {n : Nat} (h : n + 1 < 2 ^ 64) : wrapSucc n = n + 1 :=
  Nat.mod_eq_of_lt h

theorem wrapPred_succ {n : Nat} (h : n + 1 < 2 ^ 64) : wrapPred (n + 1) = n := by
  unfold wrapPred
  omega

theorem wrapSucc_wrapPred {n : Nat} (h : n < 2 ^ 64) : wrapSucc (wrapPred n) = n := by
  unfold wrapSucc wrapPred
  omega

theorem Layout.Valid.firstDataBlock_pos (hL : L.Valid) : 0 < L.firstDataBlock := by
  have := hL.superblock_le
  have := hL.inodeBitmap_le
  have := hL.blockBitmap_le
  have hpos : 0 < L.firstDataBlock * L.blockSize := by
    have := hL.inodeTable_le
    omega
  exact Nat.pos_of_mul_pos_right hpos

theorem Layout.Valid.totalBlocks_lt (hL : L.Valid) : L.totalBlocks + 1 < 2 ^ 64 := by
  have hbytes := hL.bytes_lt
  have hle : L.totalBlocks * 512 ≤ L.totalBlocks * L.blockSize :=
    Nat.mul_le_mul_left _ hL.blockSize_ge
  omega

theorem Layout.Valid.inodeCount_lt (hL : L.Valid) : L.inodeCount + 1 < 2 ^ 64 := by
  have := hL.bitmap_bounds.2.2.2.2
  have := hL.inodeCount_pos
  omega

theorem Layout.IsData.ne_zero {b : Nat} (hb : L.IsData b) (hL : L.Valid) : b ≠ 0 := by
  have := hb.ge
  have := hL.firstDataBlock_pos
  omega

theorem Ready.takeBlock (hL : L.Valid) (h : Ready L V) {b : Nat} (hb : b < L.totalBlocks)
    (hclear : V.blockBit b = false) : Ready L (V.takeBlock b) := by
  refine ⟨?_, ?_, h.freeInodes, h.reserved⟩
  · intro c hc
    by_cases hcb : c = b
    · subst hcb
      exact Function.update_self ..
    · exact (Function.update_of_ne hcb ..).trans (h.metadata c hc)
  · have hcount := clearCount_set hb hclear
    have hle := clearCount_le V.blockBit L.totalBlocks
    have hlt := hL.totalBlocks_lt
    change wrapPred V.freeBlocks = clearCount (Function.update V.blockBit b true) L.totalBlocks
    rw [h.freeBlocks, ← hcount]
    exact wrapPred_succ (by omega)

theorem Ready.dropBlock (hL : L.Valid) (h : Ready L V) {b : Nat} (hb : L.IsData b)
    (hset : V.blockBit b = true) : Ready L (V.dropBlock b) := by
  refine ⟨?_, ?_, h.freeInodes, h.reserved⟩
  · intro c hc
    have hcb : c ≠ b := by
      have := hb.ge
      omega
    exact (Function.update_of_ne hcb ..).trans (h.metadata c hc)
  · have hcount := clearCount_clear hb.lt hset
    have hle := clearCount_le (Function.update V.blockBit b false) L.totalBlocks
    have hlt := hL.totalBlocks_lt
    change wrapSucc V.freeBlocks = clearCount (Function.update V.blockBit b false) L.totalBlocks
    rw [h.freeBlocks, hcount]
    exact wrapSucc_of_lt (by omega)

theorem Ready.takeInode (hL : L.Valid) (h : Ready L V) {i : Nat} (hi : i < L.inodeCount)
    (hclear : V.inodeBit i = false) : Ready L (V.takeInode i) := by
  refine ⟨h.metadata, h.freeBlocks, ?_, ?_⟩
  · have hcount := clearCount_set hi hclear
    have hle := clearCount_le V.inodeBit L.inodeCount
    have hlt := hL.inodeCount_lt
    change wrapPred V.freeInodes = clearCount (Function.update V.inodeBit i true) L.inodeCount
    rw [h.freeInodes, ← hcount]
    exact wrapPred_succ (by omega)
  · have hne : 0 ≠ i := by
      rintro rfl
      rw [h.reserved] at hclear
      cases hclear
    exact (Function.update_of_ne hne ..).trans h.reserved

theorem Ready.dropInode (hL : L.Valid) (h : Ready L V) {i : Nat} (h0 : i ≠ 0)
    (hi : i < L.inodeCount) (hset : V.inodeBit i = true) : Ready L (V.dropInode i) := by
  refine ⟨h.metadata, h.freeBlocks, ?_, ?_⟩
  · have hcount := clearCount_clear hi hset
    have hle := clearCount_le (Function.update V.inodeBit i false) L.inodeCount
    have hlt := hL.inodeCount_lt
    change wrapSucc V.freeInodes = clearCount (Function.update V.inodeBit i false) L.inodeCount
    rw [h.freeInodes, hcount]
    exact wrapSucc_of_lt (by omega)
  · exact (Function.update_of_ne h0.symm ..).trans h.reserved

theorem Ready.writeBlock (h : Ready L V) (b o : Nat) (bytes : List UInt8) :
    Ready L (V.writeBlock b o bytes) :=
  ⟨h.metadata, h.freeBlocks, h.freeInodes, h.reserved⟩

theorem Ready.writeInode (h : Ready L V) (i : Nat) (x : Inode) : Ready L (V.writeInode i x) :=
  ⟨h.metadata, h.freeBlocks, h.freeInodes, h.reserved⟩

/-- A block that is taken and given back leaves no trace. -/
theorem Ready.takeBlock_dropBlock (hL : L.Valid) (h : Ready L V) {b : Nat}
    (hclear : V.blockBit b = false) : (V.takeBlock b).dropBlock b = V := by
  have hcount : V.freeBlocks < 2 ^ 64 := by
    have := clearCount_le V.blockBit L.totalBlocks
    have := hL.totalBlocks_lt
    have := h.freeBlocks
    omega
  ext1
  · change Function.update (Function.update V.blockBit b true) b false = V.blockBit
    rw [Function.update_idem, ← hclear, Function.update_eq_self]
  · rfl
  · rfl
  · rfl
  · exact wrapSucc_wrapPred hcount
  · rfl

/-- The same for an inode. -/
theorem Ready.takeInode_dropInode (hL : L.Valid) (h : Ready L V) {i : Nat}
    (hclear : V.inodeBit i = false) : (V.takeInode i).dropInode i = V := by
  have hcount : V.freeInodes < 2 ^ 64 := by
    have := clearCount_le V.inodeBit L.inodeCount
    have := hL.inodeCount_lt
    have := h.freeInodes
    omega
  ext1
  · rfl
  · change Function.update (Function.update V.inodeBit i true) i false = V.inodeBit
    rw [Function.update_idem, ← hclear, Function.update_eq_self]
  · rfl
  · rfl
  · rfl
  · exact wrapSucc_wrapPred hcount

/-- An allocation takes a clear data block or finds none. -/
theorem Ready.allocBlock (hL : L.Valid) (h : Ready L V) :
    (∃ b, firstClear V.blockBit L.totalBlocks 0 = some b ∧ L.IsData b ∧ V.blockBit b = false ∧
      Does L V (allocBlock : NyfsM D _) (.ok b) (V.takeBlock b)) ∨
    (firstClear V.blockBit L.totalBlocks 0 = none ∧
      Does L V (Nyfs.allocBlock : NyfsM D _) (.error (.status .NdiskFull)) V) := by
  cases hfirst : firstClear V.blockBit L.totalBlocks 0 with
  | none => exact Or.inr ⟨rfl, does_allocBlock_full hL hfirst⟩
  | some b =>
      obtain ⟨-, hlt, hclear⟩ := firstClear_some hfirst
      have hge : L.firstDataBlock ≤ b := by
        by_contra hlow
        rw [h.metadata b (by omega)] at hclear
        cases hclear
      exact Or.inl ⟨b, rfl, ⟨hge, by omega⟩, hclear, does_allocBlock hL hfirst⟩

/-- An allocation takes a clear inode other than the reserved one or finds none. -/
theorem Ready.allocInode (hL : L.Valid) (h : Ready L V) :
    (∃ i, firstClear V.inodeBit L.inodeCount 0 = some i ∧ i ≠ 0 ∧ i < L.inodeCount ∧
      V.inodeBit i = false ∧ Does L V (allocInode : NyfsM D _) (.ok i) (V.takeInode i)) ∨
    (firstClear V.inodeBit L.inodeCount 0 = none ∧
      Does L V (Nyfs.allocInode : NyfsM D _) (.error (.status .NoutOfMemory)) V) := by
  cases hfirst : firstClear V.inodeBit L.inodeCount 0 with
  | none => exact Or.inr ⟨rfl, does_allocInode_full hL hfirst⟩
  | some i =>
      obtain ⟨-, hlt, hclear⟩ := firstClear_some hfirst
      have h0 : i ≠ 0 := by
        rintro rfl
        rw [h.reserved] at hclear
        cases hclear
      exact Or.inl ⟨i, rfl, h0, by omega, hclear, does_allocInode hL hfirst⟩

/-! ## Growing footprints -/

/-- The second view has taken the given blocks and differs from the first one only in the
content of the touched blocks. -/
structure Takes (L : Layout) (V V' : View) (taken touched : List Nat) : Prop where
  ready : Ready L V'
  blockBit : ∀ b, V'.blockBit b = (V.blockBit b || decide (b ∈ taken))
  fresh : ∀ b ∈ taken, L.IsData b ∧ V.blockBit b = false
  nodup : taken.Nodup
  inodeBit : V'.inodeBit = V.inodeBit
  inode : V'.inode = V.inode
  block : ∀ b, b ∉ touched → V'.block b = V.block b

variable {taken taken' touched touched' : List Nat}

/-- A bitmap with further bits set. -/
def mark (bits : Nat → Bool) (taken : List Nat) : Nat → Bool :=
  fun b => bits b || decide (b ∈ taken)

theorem Takes.mark_eq (h : Takes L V V' taken touched) : V'.blockBit = mark V.blockBit taken :=
  funext h.blockBit

theorem Takes.refl (h : Ready L V) (touched : List Nat) : Takes L V V [] touched where
  ready := h
  blockBit b := by simp
  fresh b hb := by cases hb
  nodup := List.nodup_nil
  inodeBit := rfl
  inode := rfl
  block _ _ := rfl

theorem Takes.mono (h : Takes L V V' taken touched) (hsub : touched ⊆ touched') :
    Takes L V V' taken touched' :=
  { h with block := fun b hb => h.block b (fun hmem => hb (hsub hmem)) }

/-- A block that was set stays set. -/
theorem Takes.blockBit_of_set (h : Takes L V V' taken touched) {b : Nat}
    (hb : V.blockBit b = true) : V'.blockBit b = true := by
  rw [h.blockBit, hb, Bool.true_or]

theorem Takes.blockBit_of_mem (h : Takes L V V' taken touched) {b : Nat} (hb : b ∈ taken) :
    V'.blockBit b = true := by
  rw [h.blockBit, decide_eq_true hb, Bool.or_true]

theorem Takes.trans (h : Takes L V V' taken touched) (h' : Takes L V' V'' taken' touched') :
    Takes L V V'' (taken ++ taken') (touched ++ touched') where
  ready := h'.ready
  blockBit b := by
    rw [h'.blockBit, h.blockBit, Bool.or_assoc, ← Bool.decide_or]
    simp only [List.mem_append]
  fresh b hb := by
    rcases List.mem_append.mp hb with hb | hb
    · exact h.fresh b hb
    · obtain ⟨hdata, hclear⟩ := h'.fresh b hb
      rw [h.blockBit, Bool.or_eq_false_iff] at hclear
      exact ⟨hdata, hclear.1⟩
  nodup := by
    refine List.Nodup.append h.nodup h'.nodup ?_
    intro b hb hb'
    have hset := h.blockBit_of_mem hb
    rw [(h'.fresh b hb').2] at hset
    cases hset
  inodeBit := h'.inodeBit.trans h.inodeBit
  inode := h'.inode.trans h.inode
  block b hb := by
    rw [List.mem_append, not_or] at hb
    rw [h'.block b hb.2, h.block b hb.1]

theorem Takes.take (hL : L.Valid) (h : Ready L V) {b : Nat} (hb : L.IsData b)
    (hclear : V.blockBit b = false) : Takes L V (V.takeBlock b) [b] [] where
  ready := h.takeBlock hL hb.lt hclear
  blockBit c := by
    change Function.update V.blockBit b true c = _
    by_cases hc : c = b
    · subst hc
      simp
    · rw [Function.update_of_ne hc]
      simp [hc]
  fresh c hc := by
    rw [List.mem_singleton] at hc
    subst hc
    exact ⟨hb, hclear⟩
  nodup := List.nodup_singleton b
  inodeBit := rfl
  inode := rfl
  block _ _ := rfl

theorem Takes.write (h : Ready L V) (b o : Nat) (bytes : List UInt8) :
    Takes L V (V.writeBlock b o bytes) [] [b] where
  ready := h.writeBlock b o bytes
  blockBit c := by
    rw [decide_eq_false (List.not_mem_nil), Bool.or_false]
    rfl
  fresh c hc := by cases hc
  nodup := List.nodup_nil
  inodeBit := rfl
  inode := rfl
  block c hc := by
    rw [List.mem_singleton] at hc
    exact Function.update_of_ne hc ..

end Nyfs
end Nyxis
