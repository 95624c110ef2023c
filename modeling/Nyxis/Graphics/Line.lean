import Nyxis.Lib.Effect
import Nyxis.Lib.Straight
import Mathlib.Logic.Function.Basic
import Mathlib.Tactic.LinearCombination

/-!
# Drawing a line

{lit}`draw_pixel` and {lit}`draw_line_plus` of {lit}`graphics_base.c` in checked 32-bit arithmetic.
The loop of {lit}`draw_line_plus` goes along the rounding of the straight line.  Twice the error term
is computed as an {lit}`i32` in each round; on long flat or steep lines it does not fit.

Main results:

- Theorem {lit}`lineLoop_pointAt`: one round goes from one point of the line to the next.
- Theorem {lit}`fits_iff`: when twice the error term always fits.
- Theorem {lit}`draw_line_plus_exact`: the loop ends at the end point exactly then.
-/

namespace Nyxis
namespace Graphics

/-! ## The code -/

/-- The fields of {lit}`NTBLI` that describe the framebuffer.  The address 0 is the null pointer. -/
structure Ntbli where
  framebufferBase : Nat
  framebufferSize : Nat
  width : Nat
  height : Nat
  pixelsPerScanLine : Nat
  pixelFormat : Nat

/-- The cells of the framebuffer, and the points that have been given to {lit}`draw_pixel`. -/
structure Canvas where
  cells : Nat → Nat
  plotted : List (Int × Int)

/-- Why the loop does not return. -/
inductive Fault
  | overflow
  | hang
deriving DecidableEq

abbrev LineM := Eff Fault Canvas

/-- The numbers of type {lit}`i32`. -/
def InI32 (n : Int) : Prop :=
  -2 ^ 31 ≤ n ∧ n < 2 ^ 31

instance (n : Int) : Decidable (InI32 n) :=
  inferInstanceAs (Decidable (_ ∧ _))

/-- The result of an {lit}`i32` operation, whose overflow is undefined. -/
def checked (n : Int) : LineM Int :=
  if InI32 n then pure n else Eff.fail .overflow

/-- {lit}`fb_usable`. -/
def fbUsable : Option Ntbli → Bool
  | none => false
  | some info =>
      if info.framebufferBase = 0 then false
      else if info.pixelFormat ≠ 0 ∧ info.pixelFormat ≠ 1 then false
      else if info.pixelsPerScanLine < info.width then false
      else decide (info.pixelsPerScanLine * info.height * 4 % 2 ^ 64 ≤ info.framebufferSize)

/-- {lit}`draw_pixel`. -/
def drawPixel (info : Option Ntbli) (x y : Int) (color : Nat) (s : Canvas) : Canvas :=
  let s := { s with plotted := s.plotted ++ [(x, y)] }
  match info with
  | none => s
  | some fb =>
      if fbUsable info = false then s
      else if x < 0 ∨ y < 0 ∨ x.toNat ≥ fb.width ∨ y.toNat ≥ fb.height then s
      else
        let index := (y.toNat * fb.pixelsPerScanLine + x.toNat) % 2 ^ 64
        { s with cells := Function.update s.cells index color }

/-- {lit}`iabs32`. -/
def iabs32 (v : Int) : LineM Int :=
  if v < 0 then checked (-v) else pure v

/-- One of the two tests in the loop of {lit}`draw_line_plus`: if it holds, the error term and one
coordinate change. -/
def stepIf (c : Prop) [Decidable c] (d step err p : Int) : LineM (Int × Int) :=
  if c then do
    let err ← checked (err + d)
    let p ← checked (p + step)
    pure (err, p)
  else pure (err, p)

/-- The loop of {lit}`draw_line_plus`. -/
def lineLoop (info : Option Ntbli) (color : Nat) (x1 y1 dx dy sx sy : Int) :
    (fuel : Nat) → (x0 y0 err : Int) → LineM Unit
  | fuel, x0, y0, err => do
      Eff.modify (drawPixel info x0 y0 color)
      if x0 = x1 ∧ y0 = y1 then pure ()
      else
        match fuel with
        | 0 => Eff.fail .hang
        | fuel + 1 => do
            let e2 ← checked (2 * err)
            let (err, x0) ← stepIf (e2 ≥ dy) dy sx err x0
            let (err, y0) ← stepIf (e2 ≤ dx) dx sy err y0
            lineLoop info color x1 y1 dx dy sx sy fuel x0 y0 err

/-- {lit}`draw_line_plus`. -/
def drawLinePlus (info : Option Ntbli) (x0 y0 x1 y1 : Int) (color fuel : Nat) : LineM Unit := do
  let dx ← (do iabs32 (← checked (x1 - x0)))
  let sx : Int := if x0 < x1 then 1 else -1
  let dy ← (do checked (-(← iabs32 (← checked (y1 - y0)))))
  let sy : Int := if y0 < y1 then 1 else -1
  let err ← checked (dx + dy)
  lineLoop info color x1 y1 dx dy sx sy fuel x0 y0 err

/-! ## One round -/

section Round

variable {info : Option Ntbli} {color fuel : Nat} {x0 y0 x1 y1 dx dy sx sy err : Int} {s : Canvas}

theorem checked_run {n : Int} (h : InI32 n) (s : Canvas) : checked n s = (.ok n, s) := by
  unfold checked
  rw [if_pos h]
  rfl

@[simp]
theorem drawPixel_plotted (info : Option Ntbli) (x y : Int) (color : Nat) (s : Canvas) :
    (drawPixel info x y color s).plotted = s.plotted ++ [(x, y)] := by
  unfold drawPixel
  dsimp only
  split
  next => rfl
  next =>
    split
    next => rfl
    next =>
      split
      next => rfl
      next => rfl

/-- The loop returns at the end point. -/
theorem lineLoop_end (fuel : Nat) (s : Canvas) :
    lineLoop info color x1 y1 dx dy sx sy fuel x1 y1 err s =
      (.ok (), drawPixel info x1 y1 color s) := by
  unfold lineLoop
  rw [Eff.modify_bind_run, if_pos ⟨rfl, rfl⟩]
  rfl

theorem lineLoop_zero (hend : ¬ (x0 = x1 ∧ y0 = y1)) (s : Canvas) :
    lineLoop info color x1 y1 dx dy sx sy 0 x0 y0 err s =
      (.error .hang, drawPixel info x0 y0 color s) := by
  unfold lineLoop
  rw [Eff.modify_bind_run, if_neg hend]
  rfl

/-- One step of a coordinate with its change of the error term. -/
theorem stepIf_run {c : Prop} [Decidable c] {d step err p : Int}
    (h : c → InI32 (err + d) ∧ InI32 (p + step)) (s : Canvas) :
    stepIf c d step err p s = (.ok (if c then err + d else err, if c then p + step else p), s) := by
  unfold stepIf
  by_cases hc : c
  · obtain ⟨herr, hp⟩ := h hc
    rw [if_pos hc, if_pos hc, if_pos hc, Eff.bind_ok (checked_run herr s),
      Eff.bind_ok (checked_run hp s)]
    rfl
  · rw [if_neg hc, if_neg hc, if_neg hc]
    rfl

/-- One round of the loop away from the end point. -/
theorem lineLoop_succ (fuel : Nat) (s : Canvas) (hend : ¬ (x0 = x1 ∧ y0 = y1))
    (hx : 2 * err ≥ dy → InI32 (err + dy) ∧ InI32 (x0 + sx))
    (hy : 2 * err ≤ dx →
      InI32 ((if 2 * err ≥ dy then err + dy else err) + dx) ∧ InI32 (y0 + sy)) :
    lineLoop info color x1 y1 dx dy sx sy (fuel + 1) x0 y0 err s =
      if InI32 (2 * err) then
        lineLoop info color x1 y1 dx dy sx sy fuel
          (if 2 * err ≥ dy then x0 + sx else x0) (if 2 * err ≤ dx then y0 + sy else y0)
          (if 2 * err ≤ dx then (if 2 * err ≥ dy then err + dy else err) + dx
            else (if 2 * err ≥ dy then err + dy else err))
          (drawPixel info x0 y0 color s)
      else (.error .overflow, drawPixel info x0 y0 color s) := by
  rw [lineLoop, Eff.modify_bind_run, if_neg hend]
  by_cases hfits : InI32 (2 * err)
  · rw [if_pos hfits, Eff.bind_ok (checked_run hfits _), Eff.bind_ok (stepIf_run hx _)]
    exact Eff.bind_ok (stepIf_run hy _)
  · rw [if_neg hfits]
    refine Eff.bind_error ?_
    unfold checked
    rw [if_neg hfits]
    rfl

end Round

/-! ## The points of the line -/

variable {a b n : Nat}

/-- Steps along either axis after some rounds.  The longer one steps in every round. -/
def stepsX (a b n : Nat) : Nat := if b ≤ a then n else minorSteps b a n
def stepsY (a b n : Nat) : Nat := if b ≤ a then minorSteps a b n else n

/-- The error term after some rounds. -/
def errAt (a b n : Nat) : Int :=
  (stepsY a b n + 1) * a - (stepsX a b n + 1) * b

/-- Twice the error term on a flat line. -/
theorem two_errAt_flat (h : b ≤ a) (n : Nat) :
    2 * errAt a b n = 3 * a - 2 * b - residue a b n := by
  have hsplit : 2 * ((minorSteps a b n : Int) * a) + residue a b n = 2 * ((n : Int) * b) + a := by
    exact_mod_cast minorSteps_add_residue a b n
  unfold errAt stepsX stepsY
  rw [if_pos h, if_pos h]
  linear_combination hsplit

/-- Twice the error term on a steep line. -/
theorem two_errAt_steep (h : a < b) (n : Nat) :
    2 * errAt a b n = 2 * a - 3 * b + residue b a n := by
  have hsplit : 2 * ((minorSteps b a n : Int) * b) + residue b a n = 2 * ((n : Int) * a) + b := by
    exact_mod_cast minorSteps_add_residue b a n
  unfold errAt stepsX stepsY
  rw [if_neg (by omega), if_neg (by omega)]
  linear_combination -hsplit

/-- The error term decides whether the line steps along the first axis. -/
theorem stepsX_succ (hn : n < max a b) :
    stepsX a b (n + 1) =
      if 2 * errAt a b n ≥ -(b : Int) then stepsX a b n + 1 else stepsX a b n := by
  by_cases h : b ≤ a
  · have hlt := residue_lt (M := a) (by omega) b n
    have herr := two_errAt_flat h n
    rw [if_pos (by omega)]
    unfold stepsX
    rw [if_pos h, if_pos h]
  · have herr := two_errAt_steep (by omega : a < b) n
    unfold stepsX
    rw [if_neg h, if_neg h, minorSteps_succ (by omega) (by omega)]
    refine if_congr ?_ rfl rfl
    omega

/-- The error term decides whether the line steps along the second axis. -/
theorem stepsY_succ (hn : n < max a b) :
    stepsY a b (n + 1) =
      if 2 * errAt a b n ≤ a then stepsY a b n + 1 else stepsY a b n := by
  by_cases h : b ≤ a
  · have herr := two_errAt_flat h n
    unfold stepsY
    rw [if_pos h, if_pos h, minorSteps_succ (by omega) h]
    refine if_congr ?_ rfl rfl
    omega
  · have hlt := residue_lt (M := b) (by omega) a n
    have herr := two_errAt_steep (by omega : a < b) n
    rw [if_pos (by omega)]
    unfold stepsY
    rw [if_neg h, if_neg h]

/-- The error term follows the steps. -/
theorem errAt_succ (hn : n < max a b) :
    errAt a b (n + 1) =
      if 2 * errAt a b n ≤ a then
        (if 2 * errAt a b n ≥ -(b : Int) then errAt a b n + -(b : Int) else errAt a b n) + a
      else (if 2 * errAt a b n ≥ -(b : Int) then errAt a b n + -(b : Int) else errAt a b n) := by
  have hX := stepsX_succ hn
  have hY := stepsY_succ hn
  by_cases hx : 2 * errAt a b n ≥ -(b : Int)
  · rw [if_pos hx] at hX
    rw [if_pos hx]
    by_cases hy : 2 * errAt a b n ≤ a
    · rw [if_pos hy] at hY
      rw [if_pos hy, errAt, hX, hY, errAt]
      push_cast
      ring
    · rw [if_neg hy] at hY
      rw [if_neg hy, errAt, hX, hY, errAt]
      push_cast
      ring
  · rw [if_neg hx] at hX
    rw [if_neg hx]
    by_cases hy : 2 * errAt a b n ≤ a
    · rw [if_pos hy] at hY
      rw [if_pos hy, errAt, hX, hY, errAt]
      push_cast
      ring
    · rw [if_neg hy] at hY
      rw [if_neg hy, errAt, hX, hY, errAt]

theorem stepsX_zero (a b : Nat) : stepsX a b 0 = 0 := by
  unfold stepsX
  split
  next => rfl
  next => exact minorSteps_zero b a

theorem stepsY_zero (a b : Nat) : stepsY a b 0 = 0 := by
  unfold stepsY
  split
  next => exact minorSteps_zero a b
  next => rfl

theorem stepsX_end (a b : Nat) : stepsX a b (max a b) = a := by
  unfold stepsX
  split
  next h => exact max_eq_left h
  next h =>
    rw [max_eq_right (by omega)]
    exact minorSteps_end (by omega) a

theorem stepsY_end (a b : Nat) : stepsY a b (max a b) = b := by
  unfold stepsY
  split
  next h =>
    rw [max_eq_left h]
    by_cases ha : 0 < a
    · exact minorSteps_end ha b
    · obtain rfl : a = 0 := by omega
      obtain rfl : b = 0 := by omega
      rfl
  next h => exact max_eq_right (by omega)

theorem stepsX_le (hn : n ≤ max a b) : stepsX a b n ≤ a := by
  unfold stepsX
  split
  next h => omega
  next h => exact minorSteps_le (by omega) (by omega)

theorem stepsY_le (hn : n ≤ max a b) : stepsY a b n ≤ b := by
  unfold stepsY
  split
  next h =>
    by_cases ha : 0 < a
    · exact minorSteps_le ha (by omega)
    · obtain rfl : a = 0 := by omega
      unfold minorSteps
      omega
  next h => omega

/-- Before the last round the line is not at its end. -/
theorem steps_ne_end (hn : n < max a b) : ¬ (stepsX a b n = a ∧ stepsY a b n = b) := by
  unfold stepsX stepsY
  split
  next h => omega
  next h => omega

/-- In each round either coordinate steps at most once. -/
theorem steps_succ_le (hn : n < max a b) :
    (stepsX a b (n + 1) = stepsX a b n ∨ stepsX a b (n + 1) = stepsX a b n + 1) ∧
      (stepsY a b (n + 1) = stepsY a b n ∨ stepsY a b (n + 1) = stepsY a b n + 1) := by
  rw [stepsX_succ hn, stepsY_succ hn]
  constructor
  · split
    next => exact Or.inr rfl
    next => exact Or.inl rfl
  · split
    next => exact Or.inr rfl
    next => exact Or.inl rfl

/-- The error term itself is small. -/
theorem errAt_bounds (ha : a < 2 ^ 30) (hb : b < 2 ^ 30) (hn : n < max a b) :
    -3 * 2 ^ 29 ≤ errAt a b n ∧ errAt a b n ≤ 3 * 2 ^ 29 := by
  by_cases h : b ≤ a
  · have hlt := residue_lt (M := a) (by omega) b n
    have herr := two_errAt_flat h n
    omega
  · have hlt := residue_lt (M := b) (by omega) a n
    have herr := two_errAt_steep (by omega : a < b) n
    omega

/-! ## When twice the error term fits -/

/-- The lines on which twice the error term always fits an {lit}`i32`. -/
def Short (a b : Nat) : Prop :=
  if b ≤ a then 3 * a < 2 ^ 31 + 2 * b + a % (2 * Nat.gcd a b)
  else 3 * b ≤ 2 ^ 31 + 2 * a + b % (2 * Nat.gcd b a)

instance (a b : Nat) : Decidable (Short a b) := by
  unfold Short
  infer_instance

/-- Twice the error term fits in every round exactly on short lines. -/
theorem fits_iff (ha : a < 2 ^ 30) (hb : b < 2 ^ 30) :
    (∀ n < max a b, InI32 (2 * errAt a b n)) ↔ Short a b := by
  unfold Short InI32
  by_cases h : b ≤ a
  · rw [if_pos h, max_eq_left h]
    by_cases hzero : a = 0
    · subst hzero
      constructor
      · intro _
        omega
      · intro _ n hn
        omega
    · constructor
      · intro hfits
        obtain ⟨n, hn, hres⟩ := exists_residue_eq (M := a) (by omega) b
        have herr := two_errAt_flat h n
        have := hfits n hn
        omega
      · intro hshort n hn
        have hlt := residue_lt (M := a) (by omega) b n
        have hle := le_residue a b n
        have herr := two_errAt_flat h n
        omega
  · rw [if_neg h, max_eq_right (by omega)]
    constructor
    · intro hfits
      obtain ⟨n, hn, hres⟩ := exists_residue_eq (M := b) (by omega) a
      have herr := two_errAt_steep (by omega : a < b) n
      have := hfits n hn
      omega
    · intro hshort n hn
      have hlt := residue_lt (M := b) (by omega) a n
      have hle := le_residue b a n
      have herr := two_errAt_steep (by omega : a < b) n
      omega

/-! ## Runs of the loop -/

/-- The sign with which a coordinate steps. -/
def direction (p q : Int) : Int := if p < q then 1 else -1

theorem direction_end (p q : Int) : p + direction p q * (q - p).natAbs = q := by
  unfold direction
  split
  next h => omega
  next h => omega

/-- Steps towards the end stay between the two ends. -/
theorem direction_between {p q : Int} {k : Nat} (hk : k ≤ (q - p).natAbs) :
    min p q ≤ p + direction p q * k ∧ p + direction p q * k ≤ max p q := by
  unfold direction
  split
  next h => omega
  next h => omega

/-- Steps short of the end do not reach it. -/
theorem direction_eq_iff {p q : Int} {k : Nat} (hk : k ≤ (q - p).natAbs) :
    p + direction p q * k = q ↔ k = (q - p).natAbs := by
  unfold direction
  split
  next h => omega
  next h => omega

/-- End points whose differences are not too large. -/
structure Segment where
  x0 : Int
  y0 : Int
  x1 : Int
  y1 : Int
  hx0 : InI32 x0
  hy0 : InI32 y0
  hx1 : InI32 x1
  hy1 : InI32 y1
  hdx : (x1 - x0).natAbs < 2 ^ 30
  hdy : (y1 - y0).natAbs < 2 ^ 30

namespace Segment

/-- The distances along the two axes. -/
def dx (l : Segment) : Nat := (l.x1 - l.x0).natAbs
def dy (l : Segment) : Nat := (l.y1 - l.y0).natAbs

/-- The number of rounds. -/
def rounds (l : Segment) : Nat := max l.dx l.dy

/-- The point after some rounds. -/
def pointAt (l : Segment) (n : Nat) : Int × Int :=
  (l.x0 + direction l.x0 l.x1 * stepsX l.dx l.dy n, l.y0 + direction l.y0 l.y1 * stepsY l.dx l.dy n)

/-- The loop of {lit}`draw_line_plus` for these end points, from some round on. -/
def loopAt (l : Segment) (info : Option Ntbli) (color fuel n : Nat) : LineM Unit :=
  lineLoop info color l.x1 l.y1 l.dx (-l.dy) (direction l.x0 l.x1) (direction l.y0 l.y1) fuel
    (l.pointAt n).1 (l.pointAt n).2 (errAt l.dx l.dy n)

/-- The state after the point of a round has been drawn. -/
def drawn (l : Segment) (info : Option Ntbli) (color n : Nat) (s : Canvas) : Canvas :=
  drawPixel info (l.pointAt n).1 (l.pointAt n).2 color s

theorem pointAt_zero (l : Segment) : l.pointAt 0 = (l.x0, l.y0) := by
  unfold pointAt
  rw [stepsX_zero, stepsY_zero]
  simp

theorem pointAt_end (l : Segment) : l.pointAt l.rounds = (l.x1, l.y1) := by
  unfold pointAt rounds
  rw [stepsX_end, stepsY_end]
  exact Prod.ext (direction_end l.x0 l.x1) (direction_end l.y0 l.y1)

/-- The points are in the bounding box of the two ends. -/
theorem pointAt_between (l : Segment) {n : Nat} (hn : n ≤ l.rounds) :
    (min l.x0 l.x1 ≤ (l.pointAt n).1 ∧ (l.pointAt n).1 ≤ max l.x0 l.x1) ∧
      min l.y0 l.y1 ≤ (l.pointAt n).2 ∧ (l.pointAt n).2 ≤ max l.y0 l.y1 :=
  ⟨direction_between (stepsX_le hn), direction_between (stepsY_le hn)⟩

theorem pointAt_ne_end (l : Segment) {n : Nat} (hn : n < l.rounds) :
    ¬ ((l.pointAt n).1 = l.x1 ∧ (l.pointAt n).2 = l.y1) := by
  rintro ⟨hx, hy⟩
  exact steps_ne_end hn ⟨(direction_eq_iff (stepsX_le hn.le)).mp hx,
    (direction_eq_iff (stepsY_le hn.le)).mp hy⟩

theorem pointAt_inI32 (l : Segment) {n : Nat} (hn : n ≤ l.rounds) :
    InI32 (l.pointAt n).1 ∧ InI32 (l.pointAt n).2 := by
  obtain ⟨⟨hxlo, hxhi⟩, hylo, hyhi⟩ := l.pointAt_between hn
  have hx0 := l.hx0
  have hx1 := l.hx1
  have hy0 := l.hy0
  have hy1 := l.hy1
  unfold InI32 at *
  omega

/-- The coordinates follow the steps. -/
theorem pointAt_succ (l : Segment) {n : Nat} (hn : n < l.rounds) :
    l.pointAt (n + 1) =
      (if 2 * errAt l.dx l.dy n ≥ -(l.dy : Int) then (l.pointAt n).1 + direction l.x0 l.x1
        else (l.pointAt n).1,
      if 2 * errAt l.dx l.dy n ≤ l.dx then (l.pointAt n).2 + direction l.y0 l.y1
        else (l.pointAt n).2) := by
  unfold pointAt
  rw [stepsX_succ hn, stepsY_succ hn]
  refine Prod.ext ?_ ?_
  · dsimp only
    split
    next =>
      push_cast
      ring
    next => rfl
  · dsimp only
    split
    next =>
      push_cast
      ring
    next => rfl

/-- One round goes from one point of the line to the next, unless twice the error term does not
fit. -/
theorem loopAt_succ (l : Segment) (info : Option Ntbli) (color fuel : Nat) {n : Nat} (s : Canvas)
    (hn : n < l.rounds) :
    l.loopAt info color (fuel + 1) n s =
      if InI32 (2 * errAt l.dx l.dy n) then
        l.loopAt info color fuel (n + 1) (l.drawn info color n s)
      else (.error .overflow, l.drawn info color n s) := by
  have hdx : l.dx < 2 ^ 30 := l.hdx
  have hdy : l.dy < 2 ^ 30 := l.hdy
  have hbounds := errAt_bounds hdx hdy hn
  have hnext := l.pointAt_succ hn
  have hin := l.pointAt_inI32 (n := n + 1) hn
  have herr := errAt_succ hn
  unfold loopAt
  rw [lineLoop_succ fuel s (l.pointAt_ne_end hn)]
  · rw [hnext, herr]
    rfl
  · intro hx
    rw [hnext, if_pos hx] at hin
    refine ⟨?_, hin.1⟩
    unfold InI32
    omega
  · intro hy
    rw [hnext, if_pos hy] at hin
    refine ⟨?_, hin.2⟩
    unfold InI32
    split
    next => omega
    next => omega

/-- The loop returns in the last round. -/
theorem loopAt_end (l : Segment) (info : Option Ntbli) (color fuel : Nat) (s : Canvas) :
    l.loopAt info color fuel l.rounds s = (.ok (), l.drawn info color l.rounds s) := by
  unfold loopAt drawn
  rw [l.pointAt_end]
  exact lineLoop_end fuel s

/-- The points of some rounds. -/
def points (l : Segment) (n k : Nat) : List (Int × Int) :=
  (List.range' n k).map l.pointAt

/-- Where twice the error term always fits, the loop plots the points that are left. -/
theorem loopAt_run (l : Segment) (info : Option Ntbli) (color : Nat) {fuel k n : Nat} (s : Canvas)
    (hk : n + k = l.rounds) (hfuel : k ≤ fuel)
    (hfits : ∀ i < l.rounds, InI32 (2 * errAt l.dx l.dy i)) :
    ∃ s', l.loopAt info color fuel n s = (.ok (), s') ∧
      s'.plotted = s.plotted ++ l.points n (k + 1) := by
  induction k generalizing fuel n s with
  | zero =>
      obtain rfl : n = l.rounds := hk
      exact ⟨_, l.loopAt_end info color fuel s, drawPixel_plotted ..⟩
  | succ k ih =>
      cases fuel with
      | zero => omega
      | succ fuel =>
          have hn : n < l.rounds := by omega
          have hk' : n + 1 + k = l.rounds := by omega
          obtain ⟨s', hrun, hplotted⟩ :=
            ih (l.drawn info color n s) hk' (Nat.le_of_succ_le_succ hfuel)
          refine ⟨s', ?_, ?_⟩
          · rw [l.loopAt_succ info color fuel s hn, if_pos (hfits n hn), hrun]
          · have hdrawn : (l.drawn info color n s).plotted = s.plotted ++ [l.pointAt n] :=
              drawPixel_plotted ..
            rw [hplotted, hdrawn, List.append_assoc]
            rfl

/-- Where the loop returns, twice the error term fits in every round that is left. -/
theorem loopAt_fits (l : Segment) {info : Option Ntbli} {color fuel n : Nat} {s s' : Canvas}
    (hn : n ≤ l.rounds) (hrun : l.loopAt info color fuel n s = (.ok (), s')) :
    ∀ i, n ≤ i → i < l.rounds → InI32 (2 * errAt l.dx l.dy i) := by
  induction fuel generalizing n s with
  | zero =>
      intro i hle hi
      have hend := l.pointAt_ne_end (n := n) (by omega)
      unfold loopAt at hrun
      rw [lineLoop_zero hend] at hrun
      cases hrun
  | succ fuel ih =>
      intro i hle hi
      have hlt : n < l.rounds := by omega
      rw [l.loopAt_succ info color fuel s hlt] at hrun
      split at hrun
      next hfits =>
        rcases Nat.eq_or_lt_of_le hle with rfl | hlater
        · exact hfits
        · exact ih hlt hrun i hlater hi
      next => cases hrun

/-- {lit}`draw_line_plus` enters the loop at the first point. -/
theorem drawLinePlus_eq (l : Segment) (info : Option Ntbli) (color fuel : Nat) (s : Canvas) :
    drawLinePlus info l.x0 l.y0 l.x1 l.y1 color fuel s = l.loopAt info color fuel 0 s := by
  have hdx := l.hdx
  have hdy := l.hdy
  have habs : ∀ v : Int, v.natAbs < 2 ^ 30 → (do iabs32 (← checked v) : LineM Int) s =
      (.ok (v.natAbs : Int), s) := by
    intro v hv
    rw [Eff.bind_ok (checked_run (by unfold InI32; omega) s)]
    unfold iabs32
    split
    next hneg =>
      have hnat : -v = (v.natAbs : Int) := by omega
      rw [hnat]
      exact checked_run (by unfold InI32; omega) s
    next hpos =>
      have hnat : v = (v.natAbs : Int) := by omega
      rw [← hnat]
      rfl
  have hfirst := habs (l.x1 - l.x0) hdx
  have hsecond : (do checked (-(← iabs32 (← checked (l.y1 - l.y0)))) : LineM Int) s =
      (.ok (-(l.dy : Int)), s) := by
    have h := habs (l.y1 - l.y0) hdy
    rw [← Eff.bind_assoc_eq, Eff.bind_ok h]
    exact checked_run (by unfold InI32; omega) s
  have herr : errAt l.dx l.dy 0 = l.dx + -(l.dy : Int) := by
    unfold errAt
    rw [stepsX_zero, stepsY_zero]
    push_cast
    ring
  have hin : InI32 (l.dx + -(l.dy : Int)) := by
    unfold InI32 dx dy
    omega
  unfold drawLinePlus loopAt
  rw [Eff.bind_ok hfirst, Eff.bind_ok hsecond, l.pointAt_zero, herr]
  exact Eff.bind_ok (checked_run hin s)

/-- Neighbouring points differ by at most one in each coordinate. -/
theorem pointAt_adjacent (l : Segment) {n : Nat} (hn : n < l.rounds) :
    ((l.pointAt (n + 1)).1 - (l.pointAt n).1).natAbs ≤ 1 ∧
      ((l.pointAt (n + 1)).2 - (l.pointAt n).2).natAbs ≤ 1 := by
  have hdir : ∀ p q, (direction p q).natAbs ≤ 1 := by
    intro p q
    unfold direction
    split
    next => decide
    next => decide
  have hx := hdir l.x0 l.x1
  have hy := hdir l.y0 l.y1
  rw [l.pointAt_succ hn]
  constructor
  · dsimp only
    split
    next => omega
    next => omega
  · dsimp only
    split
    next => omega
    next => omega

theorem points_adjacent (l : Segment) {n k : Nat} (hk : n + k ≤ l.rounds + 1) :
    (l.points n k).IsChain (fun p q => (q.1 - p.1).natAbs ≤ 1 ∧ (q.2 - p.2).natAbs ≤ 1) := by
  induction k generalizing n with
  | zero => exact List.IsChain.nil
  | succ k ih =>
      cases k with
      | zero => exact List.IsChain.singleton _
      | succ k =>
          have htail := ih (n := n + 1) (by omega)
          exact List.isChain_cons_cons.mpr ⟨l.pointAt_adjacent (by omega), htail⟩

end Segment

/-- What drawing a line should do: the loop returns, and it has plotted a point for each step of the
longer axis and one more, from the first end point to the second, each next to the one before and
none outside their bounding box. -/
def DrawsLine (info : Option Ntbli) (x0 y0 x1 y1 : Int) (color : Nat) (s : Canvas) : Prop :=
  ∃ fuel s' points, drawLinePlus info x0 y0 x1 y1 color fuel s = (.ok (), s') ∧
    s'.plotted = s.plotted ++ points ∧
    points.length = max (x1 - x0).natAbs (y1 - y0).natAbs + 1 ∧
    points.head? = some (x0, y0) ∧ points.getLast? = some (x1, y1) ∧
    points.IsChain (fun p q => (q.1 - p.1).natAbs ≤ 1 ∧ (q.2 - p.2).natAbs ≤ 1) ∧
    ∀ p ∈ points, (min x0 x1 ≤ p.1 ∧ p.1 ≤ max x0 x1) ∧ min y0 y1 ≤ p.2 ∧ p.2 ≤ max y0 y1

/-- On a short line the loop ends at the end point. -/
theorem Segment.drawsLine (l : Segment) (info : Option Ntbli) (color : Nat) (s : Canvas)
    (hshort : Short l.dx l.dy) : DrawsLine info l.x0 l.y0 l.x1 l.y1 color s := by
  have hfits := (fits_iff l.hdx l.hdy).mpr hshort
  obtain ⟨s', hrun, hplotted⟩ := l.loopAt_run info color s (Nat.zero_add _)
    (le_refl l.rounds) hfits
  rw [← l.drawLinePlus_eq] at hrun
  refine ⟨l.rounds, s', l.points 0 (l.rounds + 1), hrun, hplotted, ?_, ?_, ?_, ?_, ?_⟩
  · unfold Segment.points
    rw [List.length_map, List.length_range']
    rfl
  · rw [← l.pointAt_zero]
    rfl
  · rw [← l.pointAt_end]
    unfold Segment.points
    rw [List.range'_concat, List.map_append, Nat.one_mul, Nat.zero_add]
    exact List.getLast?_concat
  · exact l.points_adjacent (by omega)
  · intro p hp
    obtain ⟨n, hn, rfl⟩ := List.mem_map.mp hp
    rw [List.mem_range'_1] at hn
    exact l.pointAt_between (by omega)

/-- Where the loop ends the line is short. -/
theorem Segment.short_of_drawsLine (l : Segment) {info : Option Ntbli} {color : Nat} {s : Canvas}
    (h : DrawsLine info l.x0 l.y0 l.x1 l.y1 color s) : Short l.dx l.dy := by
  obtain ⟨fuel, s', points, hrun, -⟩ := h
  rw [l.drawLinePlus_eq] at hrun
  exact (fits_iff l.hdx l.hdy).mp fun n hn => l.loopAt_fits (Nat.zero_le _) hrun n (Nat.zero_le _) hn

/-- For end points that are less than {lit}`2^30` apart on either axis, {lit}`draw_line_plus` draws
the line exactly when twice the error term fits an {lit}`i32` in each round, which is a condition on
the two distances. -/
theorem draw_line_plus_exact (info : Option Ntbli) (color : Nat) (s : Canvas) {x0 y0 x1 y1 : Int}
    (hx0 : InI32 x0) (hy0 : InI32 y0) (hx1 : InI32 x1) (hy1 : InI32 y1)
    (hdx : (x1 - x0).natAbs < 2 ^ 30) (hdy : (y1 - y0).natAbs < 2 ^ 30) :
    DrawsLine info x0 y0 x1 y1 color s ↔ Short (x1 - x0).natAbs (y1 - y0).natAbs :=
  ⟨Segment.short_of_drawsLine ⟨x0, y0, x1, y1, hx0, hy0, hx1, hy1, hdx, hdy⟩,
    Segment.drawsLine ⟨x0, y0, x1, y1, hx0, hy0, hx1, hy1, hdx, hdy⟩ info color s⟩

/-- An empty canvas. -/
def bareCanvas : Canvas where
  cells := fun _ => 0
  plotted := []

theorem draw_line_plus_exact_small : DrawsLine none 3 4 (-4) 1 7 bareCanvas :=
  (draw_line_plus_exact none 7 bareCanvas (by decide) (by decide) (by decide) (by decide)
    (by decide) (by decide)).mpr (by decide +kernel)

/-- On the longest flat line with one step down, twice the error term overflows. -/
theorem draw_line_plus_overflow :
    InI32 (2 ^ 30 - 1) ∧ (2 ^ 30 - 1 - 0 : Int).natAbs < 2 ^ 30 ∧ (1 - 0 : Int).natAbs < 2 ^ 30 ∧
      ¬ DrawsLine none 0 0 (2 ^ 30 - 1) 1 7 bareCanvas := by
  refine ⟨by decide, by decide, by decide, fun hdraws => ?_⟩
  have hshort := Segment.short_of_drawsLine
    ⟨0, 0, 2 ^ 30 - 1, 1, by decide, by decide, by decide, by decide, by decide, by decide⟩ hdraws
  revert hshort
  decide +kernel

end Graphics
end Nyxis
