import Mathlib.Data.List.Basic
import Mathlib.Data.UInt
import Mathlib.Tactic.Common

/-!
# Byte maps

The content of a device, a block or a stream is a map from positions to bytes.
Reading takes the bytes of a range, writing replaces a range.

Main results:

- Theorem {lit}`bytesAt_splice_self`: what has been written is read back.
- Theorem {lit}`bytesAt_splice_of_disjoint`: other ranges keep their bytes.
- Theorem {lit}`take_drop_flatMap`: a piece of one of several blocks in their concatenation.
-/

namespace Nyxis

/-- The bytes of a range. -/
def bytesAt {A : Type} (f : Nat → A) (offset size : Nat) : List A :=
  (List.range size).map (fun i => f (offset + i))

/-- A range replaced by the given bytes. -/
def splice {A : Type} (f : Nat → A) (offset : Nat) (bytes : List A) : Nat → A :=
  fun i => if i < offset then f i else bytes.getD (i - offset) (f i)

variable {A : Type} {f g : Nat → A} {offset size i : Nat} {bytes : List A}

@[simp]
theorem length_bytesAt (f : Nat → A) (offset size : Nat) : (bytesAt f offset size).length = size := by
  rw [bytesAt, List.length_map, List.length_range]

theorem getElem?_bytesAt (f : Nat → A) (offset : Nat) (h : i < size) :
    (bytesAt f offset size)[i]? = some (f (offset + i)) := by
  rw [bytesAt, List.getElem?_map, List.getElem?_range h]
  rfl

theorem bytesAt_congr (h : ∀ i, offset ≤ i → i < offset + size → g i = f i) :
    bytesAt g offset size = bytesAt f offset size := by
  refine List.map_congr_left (fun i hi => ?_)
  rw [List.mem_range] at hi
  exact h (offset + i) (by omega) (by omega)

@[simp]
theorem bytesAt_zero (f : Nat → A) (offset : Nat) : bytesAt f offset 0 = [] :=
  rfl

/-- A range is read in two parts. -/
theorem bytesAt_add (f : Nat → A) (offset m n : Nat) :
    bytesAt f offset (m + n) = bytesAt f offset m ++ bytesAt f (offset + m) n := by
  rw [bytesAt, List.range_add, List.map_append, List.map_map]
  congr 1
  refine List.map_congr_left (fun i _ => ?_)
  rw [Function.comp_apply, Nat.add_assoc]

theorem take_bytesAt (f : Nat → A) (offset : Nat) {m n : Nat} (h : m ≤ n) :
    (bytesAt f offset n).take m = bytesAt f offset m := by
  obtain ⟨k, rfl⟩ := Nat.exists_eq_add_of_le h
  rw [bytesAt_add]
  exact List.take_left' (length_bytesAt f offset m)

theorem drop_bytesAt (f : Nat → A) (offset : Nat) {m n : Nat} (h : m ≤ n) :
    (bytesAt f offset n).drop m = bytesAt f (offset + m) (n - m) := by
  obtain ⟨k, rfl⟩ := Nat.exists_eq_add_of_le h
  rw [bytesAt_add, Nat.add_sub_cancel_left]
  exact List.drop_left' (length_bytesAt f offset m)

theorem splice_of_lt (f : Nat → A) (bytes : List A) (h : i < offset) :
    splice f offset bytes i = f i :=
  if_pos h

theorem splice_of_ge (f : Nat → A) (h : offset + bytes.length ≤ i) :
    splice f offset bytes i = f i := by
  rw [splice, if_neg (by omega), List.getD_eq_getElem?_getD, List.getElem?_eq_none (by omega)]
  rfl

theorem splice_of_mem (f : Nat → A) (h : i < bytes.length) :
    some (splice f offset bytes (offset + i)) = bytes[i]? := by
  rw [splice, if_neg (by omega), Nat.add_sub_cancel_left, List.getD_eq_getElem?_getD,
    List.getElem?_eq_getElem h]
  rfl

/-- What has been written is read back. -/
theorem bytesAt_splice_self (f : Nat → A) (offset : Nat) (bytes : List A) :
    bytesAt (splice f offset bytes) offset bytes.length = bytes := by
  refine List.ext_getElem? (fun i => ?_)
  by_cases hi : i < bytes.length
  · rw [getElem?_bytesAt _ _ hi, splice_of_mem f hi]
  · rw [List.getElem?_eq_none (by rw [length_bytesAt]; omega), List.getElem?_eq_none (by omega)]

/-- Other ranges keep their bytes. -/
theorem bytesAt_splice_of_disjoint (f : Nat → A) {start : Nat}
    (h : start + size ≤ offset ∨ offset + bytes.length ≤ start) :
    bytesAt (splice f offset bytes) start size = bytesAt f start size := by
  refine bytesAt_congr (fun i hlo hhi => ?_)
  rcases h with h | h
  · exact splice_of_lt f bytes (by omega)
  · exact splice_of_ge f (by omega)

@[simp]
theorem splice_nil (f : Nat → A) (offset : Nat) : splice f offset [] = f := by
  funext i
  by_cases h : i < offset
  · exact splice_of_lt f [] h
  · exact splice_of_ge f (by simpa using h)

/-- Two neighbouring ranges are replaced one after the other. -/
theorem splice_append (f : Nat → A) (offset : Nat) (bs cs : List A) :
    splice (splice f offset bs) (offset + bs.length) cs = splice f offset (bs ++ cs) := by
  funext i
  by_cases hlo : i < offset
  · rw [splice_of_lt _ _ (by omega), splice_of_lt _ _ hlo, splice_of_lt _ _ hlo]
  · obtain ⟨j, rfl⟩ := Nat.exists_eq_add_of_le (Nat.not_lt.mp hlo)
    by_cases hmid : j < bs.length
    · refine Option.some.inj ?_
      rw [splice_of_lt _ _ (by omega), splice_of_mem f hmid,
        splice_of_mem f (by rw [List.length_append]; omega), List.getElem?_append_left hmid]
    · obtain ⟨k, rfl⟩ := Nat.exists_eq_add_of_le (Nat.not_lt.mp hmid)
      by_cases hhi : k < cs.length
      · refine Option.some.inj ?_
        rw [← Nat.add_assoc, splice_of_mem _ hhi, Nat.add_assoc,
          splice_of_mem f (by rw [List.length_append]; omega),
          List.getElem?_append_right (by omega), Nat.add_sub_cancel_left]
      · rw [splice_of_ge _ (by omega), splice_of_ge _ (by omega),
          splice_of_ge _ (by rw [List.length_append]; omega)]

/-- A piece of one of several blocks of the same length is a piece of their
concatenation. -/
theorem take_drop_flatMap {B : Type} {blockOf : B → List A} {length : Nat} {bs : List B}
    (hlen : ∀ b ∈ bs, (blockOf b).length = length) {k : Nat} {b : B} (hb : bs[k]? = some b)
    {r m : Nat} (hr : r + m ≤ length) :
    ((bs.flatMap blockOf).drop (k * length + r)).take m = ((blockOf b).drop r).take m := by
  induction bs generalizing k with
  | nil => simp at hb
  | cons x bs ih =>
      have hx : (blockOf x).length = length := hlen x (List.mem_cons_self ..)
      rw [List.flatMap_cons]
      cases k with
      | zero =>
          obtain rfl : x = b := by simpa using hb
          rw [Nat.zero_mul, Nat.zero_add, List.drop_append_of_le_length (by omega),
            List.take_append_of_le_length (by rw [List.length_drop]; omega)]
      | succ k =>
          rw [Nat.add_mul, Nat.one_mul, Nat.add_right_comm, Nat.add_comm, ← List.drop_drop,
            List.drop_left' hx]
          exact ih (fun y hy => hlen y (List.mem_cons_of_mem _ hy)) (by simpa using hb)

end Nyxis
