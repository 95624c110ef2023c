import Mathlib.Data.Int.GCD
import Mathlib.Tactic.Ring

/-!
# Rounding a straight line

A straight line runs {lit}`M` steps along one axis and {lit}`m ≤ M` steps along the other.  After
{lit}`n` steps along the first it is nearest to {lit}`minorSteps M m n` on the second, and
{lit}`residue M m n` says how far the rounding is from the next change.

Main results:

- Theorem {lit}`minorSteps_succ`: when the line steps along the second axis.
- Theorem {lit}`minorSteps_end`: it ends at its end.
- Theorem {lit}`le_residue`: a lower bound on the residue.
- Theorem {lit}`exists_residue_eq`: some step before the end has that residue.
-/

namespace Nyxis

variable {M m n : Nat}

/-- Steps along the second axis after some steps along the first, to the nearest. -/
def minorSteps (M m n : Nat) : Nat :=
  (2 * (n * m) + M) / (2 * M)

/-- What the rounding leaves. -/
def residue (M m n : Nat) : Nat :=
  (2 * (n * m) + M) % (2 * M)

theorem minorSteps_add_residue (M m n : Nat) :
    2 * (minorSteps M m n * M) + residue M m n = 2 * (n * m) + M := by
  have h := Nat.div_add_mod (2 * (n * m) + M) (2 * M)
  unfold minorSteps residue
  calc 2 * ((2 * (n * m) + M) / (2 * M) * M) + (2 * (n * m) + M) % (2 * M)
      = 2 * M * ((2 * (n * m) + M) / (2 * M)) + (2 * (n * m) + M) % (2 * M) := by ring
    _ = 2 * (n * m) + M := h

theorem residue_lt (hM : 0 < M) (m n : Nat) : residue M m n < 2 * M :=
  Nat.mod_lt _ (by omega)

theorem minorSteps_zero (M m : Nat) : minorSteps M m 0 = 0 := by
  unfold minorSteps
  rw [Nat.zero_mul, Nat.div_eq_zero_iff]
  omega

/-- The line ends at its end. -/
theorem minorSteps_end (hM : 0 < M) (m : Nat) : minorSteps M m M = m := by
  unfold minorSteps
  have h : 2 * (M * m) + M = M + 2 * M * m := by ring
  rw [h, Nat.add_mul_div_left _ _ (by omega), Nat.div_eq_of_lt (by omega), Nat.zero_add]

/-- A step along the first axis is one along the second as well when the residue runs over. -/
theorem minorSteps_succ (hM : 0 < M) (hm : m ≤ M) (n : Nat) :
    minorSteps M m (n + 1) =
      if 2 * M ≤ residue M m n + 2 * m then minorSteps M m n + 1 else minorSteps M m n := by
  have hsplit := minorSteps_add_residue M m n
  have hlt := residue_lt hM m n
  have hnext : 2 * ((n + 1) * m) + M =
      residue M m n + 2 * m + 2 * M * minorSteps M m n := by
    have h : 2 * ((n + 1) * m) + M = 2 * (n * m) + M + 2 * m := by ring
    have h' : 2 * M * minorSteps M m n = 2 * (minorSteps M m n * M) := by ring
    omega
  have hdiv : minorSteps M m (n + 1) = (residue M m n + 2 * m) / (2 * M) + minorSteps M m n := by
    change (2 * ((n + 1) * m) + M) / (2 * M) = _
    rw [hnext, Nat.add_mul_div_left _ _ (by omega)]
  rw [hdiv]
  split
  next hover =>
    have hone : (residue M m n + 2 * m) / (2 * M) = 1 := Nat.div_eq_of_lt_le (by omega) (by omega)
    rw [hone, Nat.add_comm]
  next hunder => rw [Nat.div_eq_of_lt (by omega), Nat.zero_add]

/-- The line does not pass its end. -/
theorem minorSteps_le (hM : 0 < M) (hn : n ≤ M) : minorSteps M m n ≤ m := by
  have hmono : 2 * (n * m) + M ≤ 2 * (M * m) + M :=
    Nat.add_le_add_right (Nat.mul_le_mul_left 2 (Nat.mul_le_mul_right m hn)) M
  calc minorSteps M m n ≤ minorSteps M m M := Nat.div_le_div_right hmono
    _ = m := minorSteps_end hM m

/-- Every residue is the same up to twice the common divisor of the two distances. -/
theorem residue_mod (M m n : Nat) :
    residue M m n % (2 * Nat.gcd M m) = M % (2 * Nat.gcd M m) := by
  have hdvd : 2 * Nat.gcd M m ∣ 2 * M := Nat.mul_dvd_mul_left 2 (Nat.gcd_dvd_left M m)
  have hdvd' : 2 * Nat.gcd M m ∣ 2 * (n * m) :=
    Nat.mul_dvd_mul_left 2 (Dvd.dvd.mul_left (Nat.gcd_dvd_right M m) n)
  unfold residue
  rw [Nat.mod_mod_of_dvd _ hdvd, Nat.add_mod, Nat.mod_eq_zero_of_dvd hdvd', Nat.zero_add,
    Nat.mod_mod]

/-- A lower bound on the residue. -/
theorem le_residue (M m n : Nat) : M % (2 * Nat.gcd M m) ≤ residue M m n := by
  rw [← residue_mod M m n]
  exact Nat.mod_le _ _

/-- Every multiple of the common divisor is reached before the end. -/
theorem exists_mul_mod_eq (hM : 0 < M) (m t : Nat) :
    ∃ n < M, n * m % M = Nat.gcd M m * t % M := by
  obtain ⟨x, hx⟩ : ∃ x, m * x % M = Nat.gcd M m % M := by
    by_cases hlt : Nat.gcd m M < M
    · obtain ⟨x, -, hx⟩ := Nat.exists_mul_mod_eq_gcd hlt
      exact ⟨x, by rw [hx, Nat.gcd_comm, Nat.mod_eq_of_lt (Nat.gcd_comm m M ▸ hlt)]⟩
    · have hgcd : Nat.gcd M m = M :=
        Nat.le_antisymm (Nat.gcd_le_left m hM) (Nat.gcd_comm m M ▸ Nat.not_lt.mp hlt)
      refine ⟨0, ?_⟩
      rw [hgcd, Nat.mul_zero, Nat.zero_mod, Nat.mod_self]
  refine ⟨x * t % M, Nat.mod_lt _ hM, ?_⟩
  calc x * t % M * m % M = m * x * t % M := by
        rw [Nat.mod_mul_mod, Nat.mul_right_comm, Nat.mul_comm x m]
    _ = m * x % M * t % M := (Nat.mod_mul_mod ..).symm
    _ = Nat.gcd M m % M * t % M := by rw [hx]
    _ = Nat.gcd M m * t % M := Nat.mod_mul_mod ..

/-- Some step before the end has the least residue. -/
theorem exists_residue_eq (hM : 0 < M) (m : Nat) :
    ∃ n < M, residue M m n = M % (2 * Nat.gcd M m) := by
  have hg : 0 < Nat.gcd M m := Nat.gcd_pos_of_pos_left m hM
  obtain ⟨a, ha⟩ := Nat.gcd_dvd_left M m
  -- from the middle of the line down to the least residue
  obtain ⟨n, hn, hstep⟩ := exists_mul_mod_eq hM m (a - a / 2)
  refine ⟨n, hn, ?_⟩
  have hhalf : M / (2 * Nat.gcd M m) = a / 2 := by
    rw [Nat.mul_comm 2, ← Nat.div_div_eq_div_mul, Nat.div_eq_of_eq_mul_right hg ha]
  have hsplit := Nat.div_add_mod M (2 * Nat.gcd M m)
  rw [hhalf] at hsplit
  have hle : Nat.gcd M m * (a / 2) ≤ M :=
    calc Nat.gcd M m * (a / 2) ≤ Nat.gcd M m * a := Nat.mul_le_mul_left _ (Nat.div_le_self a 2)
      _ = M := ha.symm
  have htotal : Nat.gcd M m * (a - a / 2) = M - Nat.gcd M m * (a / 2) := by
    rw [Nat.mul_sub, ← ha]
  have hdouble : 2 * (n * m) % (2 * M) = 2 * (Nat.gcd M m * (a - a / 2)) % (2 * M) := by
    rw [Nat.mul_mod_mul_left, Nat.mul_mod_mul_left, hstep]
  have hlt : M % (2 * Nat.gcd M m) < 2 * M :=
    Nat.lt_of_le_of_lt (Nat.mod_le M _) (by omega)
  unfold residue
  rw [Nat.add_mod, hdouble, ← Nat.add_mod, htotal]
  have hsum : 2 * (M - Nat.gcd M m * (a / 2)) + M = M % (2 * Nat.gcd M m) + 2 * M := by
    have h : 2 * Nat.gcd M m * (a / 2) = 2 * (Nat.gcd M m * (a / 2)) := by ring
    omega
  rw [hsum, Nat.add_mod_right, Nat.mod_eq_of_lt hlt]

end Nyxis
