import Nyxis.Lib.ByteMap
import Mathlib.Tactic.IntervalCases

/-!
# Bitmaps in byte maps

A bitmap is a region of a byte map: bit {lit}`i` is bit {lit}`i % 8` of the byte
{lit}`i / 8` bytes behind the region's start.  The map of its bits is read with
{lit}`bitsAt`, which is clear from the given count on.

Main results:

- Theorem {lit}`bitsAt_splice_putBit`: writing one byte back with a bit changed changes
  that bit of the bitmap and no other.
- Theorems {lit}`clearCount_set` and {lit}`clearCount_clear`: how the number of clear bits
  follows such a change.
-/

namespace Nyxis
namespace Bitmap

/-- A bit of a byte. -/
def testBit (byte : UInt8) (k : Nat) : Bool :=
  byte &&& (1 <<< UInt8.ofNat k) != 0

/-- A byte with one bit set or cleared. -/
def putBit (byte : UInt8) (k : Nat) (value : Bool) : UInt8 :=
  if value then byte ||| (1 <<< UInt8.ofNat k) else byte &&& ~~~(1 <<< UInt8.ofNat k)

/-- The bits of the region that starts at an offset. -/
def bitsAt (f : Nat → UInt8) (start count i : Nat) : Bool :=
  decide (i < count) && testBit (f (start + i / 8)) (i % 8)

/-- The number of clear bits. -/
def clearCount (bits : Nat → Bool) (count : Nat) : Nat :=
  (List.range count).countP (fun i => !bits i)

/-! ## Bits of a byte -/

theorem mask_getLsbD {k : Nat} (hk : k < 8) (j : Nat) :
    ((1 : UInt8) <<< UInt8.ofNat k).toBitVec.getLsbD j = decide (j = k) := by
  have hshift : ((1 : UInt8) <<< UInt8.ofNat k).toBitVec = 1#8 <<< k := by
    interval_cases k <;> rfl
  rw [hshift, BitVec.getLsbD_shiftLeft, BitVec.getLsbD_one, Bool.eq_iff_iff]
  simp only [Nat.zero_lt_succ, decide_true, Bool.true_and, Bool.and_eq_true, decide_eq_true_eq,
    Bool.not_eq_true', decide_eq_false_iff_not]
  omega

theorem testBit_eq_getLsbD (byte : UInt8) {k : Nat} (hk : k < 8) :
    testBit byte k = byte.toBitVec.getLsbD k := by
  have hzero : byte &&& (1 <<< UInt8.ofNat k) = 0 ↔ byte.toBitVec.getLsbD k = false := by
    rw [← UInt8.toBitVec_inj, UInt8.toBitVec_and]
    constructor
    · intro h
      have hbit := congrArg (fun b => b.getLsbD k) h
      rw [BitVec.getLsbD_and, mask_getLsbD hk, decide_eq_true rfl, Bool.and_true] at hbit
      exact hbit.trans (by simp)
    · intro h
      refine BitVec.eq_of_getLsbD_eq (fun j _ => ?_)
      rw [BitVec.getLsbD_and, mask_getLsbD hk]
      by_cases hj : j = k
      · subst hj
        simp [h]
      · simp [hj]
  unfold testBit
  rw [Bool.eq_iff_iff, bne_iff_ne, Ne, hzero, Bool.not_eq_false]

theorem testBit_putBit (byte : UInt8) {j k : Nat} (hj : j < 8) (hk : k < 8) (value : Bool) :
    testBit (putBit byte k value) j = if j = k then value else testBit byte j := by
  rw [testBit_eq_getLsbD _ hj, testBit_eq_getLsbD _ hj]
  cases value with
  | false =>
      simp only [putBit, Bool.false_eq_true, if_false, UInt8.toBitVec_and, UInt8.toBitVec_not,
        BitVec.getLsbD_and, BitVec.getLsbD_not, mask_getLsbD hk, hj]
      split
      next h => simp [h]
      next h => simp [h]
  | true =>
      simp only [putBit, if_true, UInt8.toBitVec_or, BitVec.getLsbD_or, mask_getLsbD hk]
      split
      next h => simp [h]
      next h => simp [h]

/-! ## Bits of a region -/

variable {f : Nat → UInt8} {start count i : Nat}

theorem bitsAt_of_ge (f : Nat → UInt8) (start : Nat) (h : count ≤ i) :
    bitsAt f start count i = false := by
  rw [bitsAt, decide_eq_false (Nat.not_lt.mpr h), Bool.false_and]

theorem bitsAt_of_lt (f : Nat → UInt8) (start : Nat) (h : i < count) :
    bitsAt f start count i = testBit (f (start + i / 8)) (i % 8) := by
  rw [bitsAt, decide_eq_true h, Bool.true_and]

/-- Writing a byte back with one bit changed changes that bit of the bitmap. -/
theorem bitsAt_splice_putBit (f : Nat → UInt8) (start : Nat) (h : i < count) (value : Bool) :
    bitsAt (splice f (start + i / 8) [putBit (f (start + i / 8)) (i % 8) value]) start count =
      Function.update (bitsAt f start count) i value := by
  funext j
  have hself : splice f (start + i / 8) [putBit (f (start + i / 8)) (i % 8) value] (start + i / 8) =
      putBit (f (start + i / 8)) (i % 8) value := by
    rw [splice, if_neg (lt_irrefl _), Nat.sub_self]
    rfl
  by_cases hj : j < count
  · rw [bitsAt_of_lt _ _ hj]
    by_cases hbyte : j / 8 = i / 8
    · rw [hbyte, hself, testBit_putBit _ (Nat.mod_lt _ (by decide)) (Nat.mod_lt _ (by decide))]
      by_cases hij : j = i
      · rw [if_pos (by rw [hij]), hij, Function.update_self]
      · rw [if_neg (by omega), Function.update_of_ne hij, bitsAt_of_lt _ _ hj, hbyte]
    · have hother : splice f (start + i / 8) [putBit (f (start + i / 8)) (i % 8) value]
          (start + j / 8) = f (start + j / 8) := by
        rcases Nat.lt_or_gt_of_ne hbyte with hlt | hgt
        · exact splice_of_lt f _ (by omega)
        · exact splice_of_ge f (by simp only [List.length_singleton]; omega)
      rw [hother, Function.update_of_ne (by rintro rfl; exact hbyte rfl), bitsAt_of_lt _ _ hj]
  · rw [bitsAt_of_ge _ _ (by omega), Function.update_of_ne (by omega), bitsAt_of_ge _ _ (by omega)]

/-- Writes outside a region keep its bits. -/
theorem bitsAt_splice_of_disjoint (f : Nat → UInt8) {offset : Nat} {bytes : List UInt8}
    (h : offset + bytes.length ≤ start ∨ start + (count + 7) / 8 ≤ offset) :
    bitsAt (splice f offset bytes) start count = bitsAt f start count := by
  funext j
  by_cases hj : j < count
  · rw [bitsAt_of_lt _ _ hj, bitsAt_of_lt _ _ hj]
    rcases h with h | h
    · rw [splice_of_ge f (by omega)]
    · rw [splice_of_lt f bytes (by omega)]
  · rw [bitsAt_of_ge _ _ (by omega), bitsAt_of_ge _ _ (by omega)]

/-! ## Counting clear bits -/

variable {bits : Nat → Bool}

theorem clearCount_le (bits : Nat → Bool) (count : Nat) : clearCount bits count ≤ count := by
  have h := List.countP_le_length (p := fun i => !bits i) (l := List.range count)
  rwa [List.length_range] at h

theorem clearCount_succ (bits : Nat → Bool) (count : Nat) :
    clearCount bits (count + 1) = clearCount bits count + (if bits count then 0 else 1) := by
  rw [clearCount, List.range_succ, List.countP_append, clearCount, List.countP_singleton]
  cases bits count <;> rfl

theorem clearCount_update_of_ge (value : Bool) (h : count ≤ i) :
    clearCount (Function.update bits i value) count = clearCount bits count := by
  refine List.countP_congr (fun j hj => ?_)
  rw [List.mem_range] at hj
  rw [Function.update_of_ne (by omega)]

/-- Setting a clear bit leaves one clear bit less. -/
theorem clearCount_set (h : i < count) (hclear : bits i = false) :
    clearCount (Function.update bits i true) count + 1 = clearCount bits count := by
  induction count with
  | zero => omega
  | succ n ih =>
      rw [clearCount_succ, clearCount_succ]
      by_cases hi : i = n
      · subst hi
        rw [clearCount_update_of_ge true le_rfl, Function.update_self, hclear]
        rfl
      · have hrest := ih (by omega)
        rw [Function.update_of_ne (Ne.symm hi)]
        omega

/-- Clearing a set bit leaves one clear bit more. -/
theorem clearCount_clear (h : i < count) (hset : bits i = true) :
    clearCount (Function.update bits i false) count = clearCount bits count + 1 := by
  have hback : clearCount (Function.update (Function.update bits i false) i true) count + 1 =
      clearCount (Function.update bits i false) count :=
    clearCount_set h (Function.update_self ..)
  rw [Function.update_idem, ← hset, Function.update_eq_self] at hback
  exact hback.symm

end Bitmap
end Nyxis
