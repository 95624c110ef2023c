import Mathlib.Data.List.Basic
import Mathlib.Data.UInt
import Mathlib.Tactic.Common
import Mathlib.Tactic.Ring

/-!
# Little-endian fields

Structures that the source reads from a file or a disk block are arrays of bytes
with little-endian unsigned fields at fixed offsets.

Main results:

- Theorem {lit}`leNat_leBytes`: a number that fits its field is read back.
- Theorem {lit}`unpack_pack`: so is a sequence of fields.
- Theorem {lit}`pack_unpack`: the fields of a byte string give the byte string back.
- Theorem {lit}`ofNat_leNat_div`: the bytes of a number.
- Theorem {lit}`testBit_leNat`: the bits of a byte string, the least significant ones first.
-/

namespace Nyxis
namespace Bytes

/-- The number that a little-endian byte string stands for. -/
def leNat : List UInt8 → Nat
  | [] => 0
  | b :: bs => b.toNat + 256 * leNat bs

/-- The little-endian field of a given width at an offset. -/
def field (bytes : List UInt8) (offset width : Nat) : Nat :=
  leNat ((bytes.drop offset).take width)

/-- The little-endian byte string of a given width. -/
def leBytes : (width n : Nat) → List UInt8
  | 0, _ => []
  | width + 1, n => UInt8.ofNat (n % 256) :: leBytes width (n / 256)

@[simp]
theorem length_leBytes (width n : Nat) : (leBytes width n).length = width := by
  induction width generalizing n with
  | zero => rfl
  | succ width ih => rw [leBytes, List.length_cons, ih]

theorem leNat_lt (bytes : List UInt8) : leNat bytes < 256 ^ bytes.length := by
  induction bytes with
  | nil => simp [leNat]
  | cons b bs ih =>
      have hb : b.toNat < 256 := b.toNat_lt
      rw [leNat, List.length_cons, Nat.pow_succ]
      omega

theorem field_lt (bytes : List UInt8) (offset width : Nat) :
    field bytes offset width < 256 ^ width := by
  refine Nat.lt_of_lt_of_le (leNat_lt _) (Nat.pow_le_pow_right (by decide) ?_)
  rw [List.length_take]
  exact Nat.min_le_left _ _

/-- A number that fits its field is read back. -/
theorem leNat_leBytes {width n : Nat} (h : n < 256 ^ width) : leNat (leBytes width n) = n := by
  induction width generalizing n with
  | zero =>
      rw [Nat.pow_zero] at h
      simp only [leBytes, leNat]
      omega
  | succ width ih =>
      rw [Nat.pow_succ] at h
      have hdiv : n / 256 < 256 ^ width := by omega
      rw [leBytes, leNat, ih hdiv]
      have hmod : (UInt8.ofNat (n % 256)).toNat = n % 256 := by
        rw [UInt8.toNat_ofNat']
        omega
      omega

theorem leNat_div (bytes : List UInt8) (j : Nat) : leNat bytes / 256 ^ j = leNat (bytes.drop j) := by
  induction j generalizing bytes with
  | zero => rw [Nat.pow_zero, Nat.div_one, List.drop_zero]
  | succ j ih =>
      cases bytes with
      | nil => rw [List.drop_nil, leNat, Nat.zero_div]
      | cons b bs =>
          have hb : b.toNat < 256 := b.toNat_lt
          have hdiv : (b.toNat + 256 * leNat bs) / 256 = leNat bs := by omega
          rw [leNat, Nat.pow_succ', ← Nat.div_div_eq_div_mul, hdiv, ih, List.drop_succ_cons]

/-- The bytes of the number that a byte string stands for. -/
theorem ofNat_leNat_div (bytes : List UInt8) (j : Nat) :
    UInt8.ofNat (leNat bytes / 256 ^ j) = (bytes[j]?).getD 0 := by
  rw [leNat_div]
  cases hdrop : bytes.drop j with
  | nil =>
      rw [List.getElem?_eq_none (List.drop_eq_nil_iff.mp hdrop)]
      rfl
  | cons b bs =>
      have hget : bytes[j]? = some b := by
        rw [← List.head?_drop, hdrop, List.head?_cons]
      rw [hget, leNat, Option.getD_some]
      apply UInt8.toNat_inj.mp
      rw [UInt8.toNat_ofNat']
      have hb : b.toNat < 256 := b.toNat_lt
      omega

/-- Fields one behind the other, each given by its width and its value. -/
def pack : List (Nat × Nat) → List UInt8
  | [] => []
  | (width, n) :: fields => leBytes width n ++ pack fields

/-- The values of fields of the given widths. -/
def unpack : List Nat → List UInt8 → List Nat
  | [], _ => []
  | width :: widths, bytes => leNat (bytes.take width) :: unpack widths (bytes.drop width)

theorem length_pack (fields : List (Nat × Nat)) :
    (pack fields).length = (fields.map Prod.fst).sum := by
  induction fields with
  | nil => rfl
  | cons f fields ih =>
      obtain ⟨width, n⟩ := f
      rw [pack, List.length_append, length_leBytes, ih]
      rfl

/-- Fields that fit are read back. -/
theorem unpack_pack {fields : List (Nat × Nat)} (h : ∀ f ∈ fields, f.2 < 256 ^ f.1) :
    unpack (fields.map Prod.fst) (pack fields) = fields.map Prod.snd := by
  induction fields with
  | nil => rfl
  | cons f fields ih =>
      obtain ⟨width, n⟩ := f
      have hn : n < 256 ^ width := h (width, n) (List.mem_cons_self ..)
      have hrest := ih (fun f hf => h f (List.mem_cons_of_mem _ hf))
      have hlen : (leBytes width n).length = width := length_leBytes width n
      rw [List.map_cons, List.map_cons, pack, unpack, List.take_left' hlen, List.drop_left' hlen,
        leNat_leBytes hn, hrest]

/-- Fields behind the packed ones do not matter. -/
theorem unpack_append {widths : List Nat} {bytes rest : List UInt8}
    (h : widths.sum = bytes.length) : unpack widths (bytes ++ rest) = unpack widths bytes := by
  induction widths generalizing bytes with
  | nil => rfl
  | cons width widths ih =>
      rw [List.sum_cons] at h
      rw [unpack, unpack, List.take_append_of_le_length (by omega),
        List.drop_append_of_le_length (by omega), ih (by rw [List.length_drop]; omega)]

theorem pack_append (fields fields' : List (Nat × Nat)) :
    pack (fields ++ fields') = pack fields ++ pack fields' := by
  induction fields with
  | nil => rfl
  | cons f fields ih =>
      obtain ⟨width, n⟩ := f
      rw [List.cons_append, pack, pack, ih, List.append_assoc]

/-- A byte string is the field of the number that it stands for. -/
theorem leBytes_leNat {width : Nat} {bytes : List UInt8} (h : bytes.length = width) :
    leBytes width (leNat bytes) = bytes := by
  induction bytes generalizing width with
  | nil =>
      subst h
      rfl
  | cons b bs ih =>
      subst h
      have hb : b.toNat < 256 := b.toNat_lt
      have hmod : (b.toNat + 256 * leNat bs) % 256 = b.toNat := by omega
      have hdiv : (b.toNat + 256 * leNat bs) / 256 = leNat bs := by omega
      rw [List.length_cons, leNat, leBytes, hmod, hdiv, ih rfl, UInt8.ofNat_toNat]

theorem leNat_inj {bytes bytes' : List UInt8} (hlength : bytes'.length = bytes.length)
    (h : leNat bytes' = leNat bytes) : bytes' = bytes := by
  have hnew : leBytes bytes.length (leNat bytes') = bytes' := leBytes_leNat hlength
  have hold : leBytes bytes.length (leNat bytes) = bytes := leBytes_leNat rfl
  rw [← hnew, h, hold]

/-- The fields of a byte string give its front back. -/
theorem pack_unpack {widths : List Nat} {bytes : List UInt8} (h : widths.sum ≤ bytes.length) :
    pack (widths.zip (unpack widths bytes)) = bytes.take widths.sum := by
  induction widths generalizing bytes with
  | nil => rfl
  | cons width widths ih =>
      rw [List.sum_cons] at h ⊢
      have hwidth : (bytes.take width).length = width := by
        rw [List.length_take]
        omega
      rw [unpack, List.zip_cons_cons, pack, leBytes_leNat hwidth,
        ih (by rw [List.length_drop]; omega), List.take_add]

/-- The fields of a byte string fit their widths. -/
theorem unpack_lt {widths : List Nat} {bytes : List UInt8} :
    ∀ f ∈ widths.zip (unpack widths bytes), f.2 < 256 ^ f.1 := by
  induction widths generalizing bytes with
  | nil =>
      intro f hf
      cases hf
  | cons width widths ih =>
      intro f hf
      rw [unpack, List.zip_cons_cons] at hf
      rcases List.mem_cons.mp hf with rfl | hf
      · refine lt_of_lt_of_le (leNat_lt _) (Nat.pow_le_pow_right (by decide) ?_)
        exact List.length_take_le width bytes
      · exact ih f hf

/-- A bit of a byte string, the least significant bit of each byte first. -/
def bitAt (bytes : List UInt8) (k : Nat) : Bool :=
  (bytes.getD (k / 8) 0).toNat.testBit (k % 8)

/-- The bits of a byte string are those of its number. -/
theorem testBit_leNat (bytes : List UInt8) (k : Nat) : (leNat bytes).testBit k = bitAt bytes k := by
  induction bytes generalizing k with
  | nil =>
      rw [leNat, bitAt, Nat.zero_testBit]
      simp
  | cons b bs ih =>
      have hb : b.toNat < 2 ^ 8 := b.toNat_lt
      rw [leNat, Nat.add_comm, show 256 = 2 ^ 8 from rfl, Nat.testBit_two_pow_mul_add _ hb, bitAt]
      split
      next hlt =>
        rw [Nat.div_eq_of_lt hlt, Nat.mod_eq_of_lt hlt]
        rfl
      next hge =>
        obtain ⟨j, rfl⟩ := Nat.exists_eq_add_of_le (Nat.not_lt.mp hge)
        have hdiv : (8 + j) / 8 = j / 8 + 1 := by omega
        have hmod : (8 + j) % 8 = j % 8 := by omega
        rw [ih, bitAt, hdiv, hmod, Nat.add_sub_cancel_left, List.getD_cons_succ]

end Bytes
end Nyxis
