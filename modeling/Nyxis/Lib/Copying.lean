import Nyxis.Lib.ByteMap
import Mathlib.Logic.Function.Basic

/-!
# Copying a range

A range of a byte map takes the bytes of another range, piece by piece.  Part of the way, a middle
piece of the destination has what the source had at the start and everything else is as it was.
The ranges may overlap: what matters is that a piece that is read has not been written before.

Main results:

- Theorem {lit}`copied_extend_right`: one more piece at the end.
- Theorem {lit}`copied_extend_left`: one more piece at the front.
-/

namespace Nyxis

variable {A : Type} {f : Nat → A} {dst src lo hi width : Nat}

/-- A piece of a range replaced by the same piece of another range. -/
def copied (f : Nat → A) (dst src lo hi : Nat) : Nat → A :=
  fun a => if dst + lo ≤ a ∧ a < dst + hi then f (src + (a - dst)) else f a

theorem copied_of_mem {a : Nat} (hlo : dst + lo ≤ a) (hhi : a < dst + hi) :
    copied f dst src lo hi a = f (src + (a - dst)) :=
  if_pos ⟨hlo, hhi⟩

theorem copied_of_not_mem {a : Nat} (h : a < dst + lo ∨ dst + hi ≤ a) :
    copied f dst src lo hi a = f a :=
  if_neg (by omega)

@[simp]
theorem copied_empty (f : Nat → A) (dst src k : Nat) : copied f dst src k k = f := by
  funext a
  exact copied_of_not_mem (by omega)

/-- A range onto itself. -/
theorem copied_self (f : Nat → A) (dst lo hi : Nat) : copied f dst dst lo hi = f := by
  funext a
  unfold copied
  split
  next h => rw [Nat.add_sub_cancel' (by omega)]
  next => rfl

/-- A range replaced by the bytes of another range. -/
theorem splice_bytesAt (f g : Nat → A) (offset start width a : Nat) :
    splice f offset (bytesAt g start width) a =
      if offset ≤ a ∧ a < offset + width then g (start + (a - offset)) else f a := by
  by_cases hlo : a < offset
  · rw [splice_of_lt _ _ hlo, if_neg (by omega)]
  · obtain ⟨i, rfl⟩ := Nat.exists_eq_add_of_le (Nat.not_lt.mp hlo)
    by_cases hi : i < width
    · apply Option.some.inj
      rw [splice_of_mem f (by rwa [length_bytesAt]), getElem?_bytesAt g start hi,
        if_pos ⟨by omega, by omega⟩, Nat.add_sub_cancel_left]
    · rw [splice_of_ge _ (by rw [length_bytesAt]; omega), if_neg (by omega)]

/-- One byte taken from another place. -/
theorem update_eq_splice (f : Nat → A) (offset start : Nat) :
    Function.update f offset (f start) = splice f offset (bytesAt f start 1) := by
  funext a
  rw [splice_bytesAt]
  by_cases ha : a = offset
  · rw [ha, Function.update_self, if_pos ⟨le_rfl, Nat.lt_succ_self _⟩, Nat.sub_self, Nat.add_zero]
  · rw [Function.update_of_ne ha, if_neg (by omega)]

/-- What is read from the source is still there, if it has not been written. -/
theorem bytesAt_copied {start : Nat} (h : start + width ≤ dst + lo ∨ dst + hi ≤ start) :
    bytesAt (copied f dst src lo hi) start width = bytesAt f start width :=
  bytesAt_congr fun _ _ _ => copied_of_not_mem (by omega)

/-- One more piece at the end. -/
theorem copied_extend_right (hle : lo ≤ hi)
    (h : src + hi + width ≤ dst + lo ∨ dst + hi ≤ src + hi) :
    splice (copied f dst src lo hi) (dst + hi)
        (bytesAt (copied f dst src lo hi) (src + hi) width) =
      copied f dst src lo (hi + width) := by
  rw [bytesAt_copied h]
  funext a
  rw [splice_bytesAt]
  split
  next hin =>
    rw [copied_of_mem (by omega) (by omega)]
    congr 1
    omega
  next hout =>
    by_cases hold : dst + lo ≤ a ∧ a < dst + hi
    · rw [copied_of_mem hold.1 hold.2, copied_of_mem hold.1 (by omega)]
    · rw [copied_of_not_mem (by omega), copied_of_not_mem (by omega)]

/-- One more piece at the front. -/
theorem copied_extend_left (hle : lo + width ≤ hi) (h : src ≤ dst) :
    splice (copied f dst src (lo + width) hi) (dst + lo)
        (bytesAt (copied f dst src (lo + width) hi) (src + lo) width) =
      copied f dst src lo hi := by
  rw [bytesAt_copied (by omega)]
  funext a
  rw [splice_bytesAt]
  split
  next hin =>
    rw [copied_of_mem (by omega) (by omega)]
    congr 1
    omega
  next hout =>
    by_cases hold : dst + (lo + width) ≤ a ∧ a < dst + hi
    · rw [copied_of_mem hold.1 hold.2, copied_of_mem (by omega) hold.2]
    · rw [copied_of_not_mem (by omega), copied_of_not_mem (by omega)]

end Nyxis
