import Nyxis.Lib.Bytes
import Mathlib.Data.Nat.Bitwise
import Mathlib.Logic.Function.Iterate

/-!
# Cyclic redundancy checks

A register of some width is shifted down, and the polynomial is added when the bit that falls out is
set.  On numbers of any size the shift is linear, so a whole message can be added to the register
before the shifts instead of byte by byte.  An error that spans no more bits than the register has
reaches it unchanged and is never shifted to zero.

Main results:

- Theorem {lit}`foldl_stepByte`: the bytes of a message one after the other are the message at once.
- Theorem {lit}`iterate_shiftDown_burst`: a burst leaves a register that is not zero.
-/

namespace Nyxis
namespace Crc

open Bytes

variable {poly width : Nat}

/-! ## The shift -/

/-- One shift of the register. -/
def shiftDown (poly register : Nat) : Nat :=
  (register >>> 1) ^^^ (if register % 2 = 1 then poly else 0)

theorem shiftDown_xor (a b : Nat) :
    shiftDown poly (a ^^^ b) = shiftDown poly a ^^^ shiftDown poly b := by
  have hmod : (a ^^^ b) % 2 = (a % 2 + b % 2) % 2 := by
    rw [Nat.xor_mod_two_eq, Nat.add_mod]
  unfold shiftDown
  rw [Nat.shiftRight_xor_distrib, hmod]
  have hterm : (if (a % 2 + b % 2) % 2 = 1 then poly else 0) =
      (if a % 2 = 1 then poly else 0) ^^^ (if b % 2 = 1 then poly else 0) := by
    rcases Nat.mod_two_eq_zero_or_one a with ha | ha
    · rcases Nat.mod_two_eq_zero_or_one b with hb | hb
      · simp [ha, hb]
      · simp [ha, hb]
    · rcases Nat.mod_two_eq_zero_or_one b with hb | hb
      · simp [ha, hb]
      · simp [ha, hb]
  rw [hterm, Nat.xor_assoc, Nat.xor_assoc, Nat.xor_left_comm (b >>> 1)]

/-- An even number is halved. -/
theorem shiftDown_two_mul (m : Nat) : shiftDown poly (2 * m) = m := by
  unfold shiftDown
  rw [if_neg (by omega), Nat.xor_zero, Nat.shiftRight_eq_div_pow]
  omega

theorem iterate_shiftDown_xor (k a b : Nat) :
    (shiftDown poly)^[k] (a ^^^ b) = (shiftDown poly)^[k] a ^^^ (shiftDown poly)^[k] b := by
  induction k generalizing a b with
  | zero => rfl
  | succ k ih =>
      rw [Function.iterate_succ_apply, Function.iterate_succ_apply, Function.iterate_succ_apply,
        shiftDown_xor, ih]

/-- Bits above the register come down unchanged. -/
theorem iterate_shiftDown_pow_mul (k m : Nat) : (shiftDown poly)^[k] (2 ^ k * m) = m := by
  induction k with
  | zero => rw [Function.iterate_zero_apply, Nat.pow_zero, Nat.one_mul]
  | succ k ih =>
      rw [Function.iterate_succ_apply, Nat.pow_succ', Nat.mul_assoc, shiftDown_two_mul, ih]

/-! ## Bursts -/

theorem shiftDown_lt (hpoly : poly < 2 ^ width) {r : Nat} (hr : r < 2 ^ width) :
    shiftDown poly r < 2 ^ width := by
  unfold shiftDown
  refine Nat.xor_lt_two_pow ?_ ?_
  · exact lt_of_le_of_lt (Nat.shiftRight_le r 1) hr
  · split
    next => exact hpoly
    next => exact Nat.two_pow_pos width

/-- With the top bit of the polynomial set no register but zero is shifted to zero. -/
theorem shiftDown_ne_zero (htop : poly.testBit width = true) {r : Nat} (hr : r < 2 ^ (width + 1))
    (hne : r ≠ 0) : shiftDown poly r ≠ 0 := by
  have hhalf : r >>> 1 < 2 ^ width := by
    rw [Nat.shiftRight_eq_div_pow]
    rw [Nat.pow_succ] at hr
    omega
  unfold shiftDown
  by_cases hodd : r % 2 = 1
  · rw [if_pos hodd]
    intro hzero
    have hbit := congrArg (fun m : Nat => m.testBit width) hzero
    simp only [Nat.testBit_xor, Nat.testBit_lt_two_pow hhalf, htop, Nat.zero_testBit] at hbit
    cases hbit
  · rw [if_neg hodd, Nat.xor_zero, Nat.shiftRight_eq_div_pow]
    omega

theorem iterate_shiftDown_ne_zero (hpoly : poly < 2 ^ (width + 1)) (htop : poly.testBit width = true)
    {r : Nat} (hr : r < 2 ^ (width + 1)) (hne : r ≠ 0) (k : Nat) : (shiftDown poly)^[k] r ≠ 0 := by
  induction k generalizing r with
  | zero => exact hne
  | succ k ih =>
      rw [Function.iterate_succ_apply]
      exact ih (shiftDown_lt hpoly hr) (shiftDown_ne_zero htop hr hne)

/-- A burst that is no longer than the register leaves a register that is not zero. -/
theorem iterate_shiftDown_burst (hpoly : poly < 2 ^ (width + 1)) (htop : poly.testBit width = true)
    {burst start k : Nat} (hburst : burst < 2 ^ (width + 1)) (hne : burst ≠ 0) (hstart : start ≤ k) :
    (shiftDown poly)^[k] (2 ^ start * burst) ≠ 0 := by
  obtain ⟨rest, rfl⟩ := Nat.exists_eq_add_of_le hstart
  rw [Nat.add_comm start rest, Function.iterate_add_apply, iterate_shiftDown_pow_mul]
  exact iterate_shiftDown_ne_zero hpoly htop hburst hne rest

/-- An error whose bits lie within as many consecutive positions as the register has. -/
theorem iterate_shiftDown_error (hpoly : poly < 2 ^ (width + 1)) (htop : poly.testBit width = true)
    {error start k : Nat} (hne : error ≠ 0)
    (hbits : ∀ bit, error.testBit bit = true → start ≤ bit ∧ bit < start + (width + 1))
    (hlt : error < 2 ^ k) : (shiftDown poly)^[k] error ≠ 0 := by
  have hshift : error = 2 ^ start * (error >>> start) := by
    refine Nat.eq_of_testBit_eq (fun bit => ?_)
    rw [Nat.testBit_two_pow_mul, Nat.testBit_shiftRight]
    by_cases hle : start ≤ bit
    · rw [decide_eq_true hle, Bool.true_and, Nat.add_sub_cancel' hle]
    · rw [decide_eq_false hle, Bool.false_and, Bool.eq_false_iff]
      exact fun hset => hle (hbits bit hset).1
  have hburst : error >>> start < 2 ^ (width + 1) := by
    refine Nat.lt_pow_two_of_testBit _ (fun bit hle => ?_)
    rw [Nat.testBit_shiftRight, Bool.eq_false_iff]
    intro hset
    have := (hbits _ hset).2
    omega
  have hpos : error >>> start ≠ 0 := by
    intro hzero
    rw [hzero, Nat.mul_zero] at hshift
    exact hne hshift
  have hstart : start ≤ k := by
    by_contra hgt
    have hle : 2 ^ k ≤ 2 ^ start := Nat.pow_le_pow_right (by decide) (Nat.le_of_not_le hgt)
    have hmul : 2 ^ start ≤ 2 ^ start * (error >>> start) :=
      Nat.le_mul_of_pos_right _ (Nat.pos_of_ne_zero hpos)
    omega
  rw [hshift]
  exact iterate_shiftDown_burst hpoly htop hburst hpos hstart

/-! ## Bytes -/

/-- One byte: it is added to the register, which is shifted eight times. -/
def stepByte (poly register : Nat) (byte : UInt8) : Nat :=
  (shiftDown poly)^[8] (register ^^^ byte.toNat)

theorem leNat_cons_xor (b : UInt8) (bs : List UInt8) :
    leNat (b :: bs) = b.toNat ^^^ 2 ^ 8 * leNat bs := by
  have hb : b.toNat < 2 ^ 8 := b.toNat_lt
  rw [leNat, Nat.xor_comm, Nat.add_comm]
  refine Nat.eq_of_testBit_eq (fun bit => ?_)
  rw [Nat.testBit_xor, show 256 = 2 ^ 8 from rfl, Nat.testBit_two_pow_mul_add _ hb,
    Nat.testBit_two_pow_mul]
  split
  next hlt => rw [decide_eq_false (Nat.not_le.mpr hlt), Bool.false_and, Bool.false_xor]
  next hge =>
    have hbig : b.toNat < 2 ^ bit :=
      lt_of_lt_of_le hb (Nat.pow_le_pow_right (by decide) (Nat.not_lt.mp hge))
    rw [decide_eq_true (Nat.not_lt.mp hge), Bool.true_and, Nat.testBit_lt_two_pow hbig,
      Bool.xor_false]

/-- The bytes of a message one after the other are the message at once. -/
theorem foldl_stepByte (bytes : List UInt8) (register : Nat) :
    bytes.foldl (stepByte poly) register =
      (shiftDown poly)^[8 * bytes.length] (register ^^^ leNat bytes) := by
  induction bytes generalizing register with
  | nil => exact (Nat.xor_zero register).symm
  | cons b bs ih =>
      have hlength : 8 * (b :: bs).length = 8 * bs.length + 8 := rfl
      have hrest : (shiftDown poly)^[8] (2 ^ 8 * leNat bs) = leNat bs := iterate_shiftDown_pow_mul 8 _
      calc (b :: bs).foldl (stepByte poly) register
          = (shiftDown poly)^[8 * bs.length]
              ((shiftDown poly)^[8] (register ^^^ b.toNat) ^^^ leNat bs) := ih _
        _ = (shiftDown poly)^[8 * bs.length]
              ((shiftDown poly)^[8] (register ^^^ b.toNat ^^^ 2 ^ 8 * leNat bs)) := by
            rw [iterate_shiftDown_xor 8 _ (2 ^ 8 * leNat bs), hrest]
        _ = (shiftDown poly)^[8 * (b :: bs).length] (register ^^^ leNat (b :: bs)) := by
            rw [hlength, Function.iterate_add_apply, leNat_cons_xor, Nat.xor_assoc]

/-- Two messages of one length leave the same register exactly when their difference leaves zero. -/
theorem foldl_stepByte_eq_iff {bytes bytes' : List UInt8} (hlength : bytes'.length = bytes.length)
    (register : Nat) :
    bytes'.foldl (stepByte poly) register = bytes.foldl (stepByte poly) register ↔
      (shiftDown poly)^[8 * bytes.length] (leNat bytes ^^^ leNat bytes') = 0 := by
  rw [foldl_stepByte, foldl_stepByte, hlength, iterate_shiftDown_xor, iterate_shiftDown_xor _ register,
    iterate_shiftDown_xor, Nat.xor_eq_zero_iff]
  rw [Nat.xor_right_inj]
  exact eq_comm

end Crc
end Nyxis
