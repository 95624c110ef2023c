import Nyxis.Lib.Bytes
import Nyxis.Lib.Copying

/-!
# Memory routines

{lit}`memset`, {lit}`memcpy` and {lit}`memmove` of {lit}`lib/memory.c` on a memory of bytes.
Pointers are 64-bit numbers, words are eight bytes in little-endian order.  Each routine is a
sequence of byte loops and word loops, and every loop extends what the one before it has done.

Main results:

- Theorem {lit}`memset_eq`: the range holds the byte.
- Theorem {lit}`memcpy_eq`: the destination holds what the source held, if the two are disjoint or
  the destination is in front.
- Theorem {lit}`memmove_eq`: the same for any two ranges.
- Theorem {lit}`memory_routines`: the three together, byte by byte.
-/

namespace Nyxis
namespace KernelLib

open Bytes

/-! ## The routines -/

abbrev Memory := Nat → UInt8

/-- {lit}`NX_WORD_SIZE`. -/
def nxWordSize : Nat := 8

/-- {lit}`NX_WORD_MASK`. -/
def nxWordMask : Nat := nxWordSize - 1

/-- A pointer some bytes further on. -/
def advance (p n : Nat) : Nat :=
  (p + n) % 2 ^ 64

/-- A pointer some bytes back. -/
def retreat (p n : Nat) : Nat :=
  (2 ^ 64 + p - n) % 2 ^ 64

/-- Store a byte. -/
def storeByte (m : Memory) (p : Nat) (b : UInt8) : Memory :=
  Function.update m p b

/-- Load a word. -/
def loadWord (m : Memory) (p : Nat) : Nat :=
  leNat (bytesAt m p nxWordSize)

/-- Store a word. -/
def storeWord (m : Memory) (p word : Nat) : Memory :=
  splice m p (leBytes nxWordSize word)

/-- The first loop of {lit}`memset`, up to a word boundary: the remaining size, the pointer and the
memory. -/
def setAlign (byte : UInt8) : (size d8 : Nat) → Memory → Nat × Nat × Memory
  | 0, d8, m => (0, d8, m)
  | size + 1, d8, m =>
      if d8 &&& nxWordMask ≠ 0 then setAlign byte size (advance d8 1) (storeByte m d8 byte)
      else (size + 1, d8, m)

/-- The loop that builds the word pattern. -/
def wordPattern (byte : UInt8) : (i word : Nat) → Nat
  | 0, word => word
  | i + 1, word => wordPattern byte i (((word <<< 8) % 2 ^ 64) ||| byte.toNat)

/-- The word loop of {lit}`memset`. -/
def setWords (word : Nat) : (size d8 : Nat) → Memory → Nat × Nat × Memory
  | size + 8, d8, m => setWords word size (advance d8 8) (storeWord m d8 word)
  | size, d8, m => (size, d8, m)

/-- The last loop of {lit}`memset`. -/
def setBytes (byte : UInt8) : (size d8 : Nat) → Memory → Memory
  | 0, _, m => m
  | size + 1, d8, m => setBytes byte size (advance d8 1) (storeByte m d8 byte)

/-- {lit}`memset`: the pointer that it returns and the memory that it leaves. -/
def memset (m : Memory) (dst : Nat) (value : Int) (size : Nat) : Nat × Memory :=
  let byte := UInt8.ofInt value
  let (size₁, d8, m₁) := setAlign byte size dst m
  let word := wordPattern byte nxWordSize 0
  let (size₂, d8, m₂) := setWords word size₁ d8 m₁
  (dst, setBytes byte size₂ d8 m₂)

/-- The word loop of {lit}`memcpy`. -/
def copyWords : (size d8 s8 : Nat) → Memory → Nat × Nat × Nat × Memory
  | size + 8, d8, s8, m =>
      copyWords size (advance d8 8) (advance s8 8) (storeWord m d8 (loadWord m s8))
  | size, d8, s8, m => (size, d8, s8, m)

/-- The byte loop of {lit}`memcpy`. -/
def copyBytes : (size d8 s8 : Nat) → Memory → Memory
  | 0, _, _, m => m
  | size + 1, d8, s8, m =>
      copyBytes size (advance d8 1) (advance s8 1) (storeByte m d8 (m s8))

/-- {lit}`memcpy`. -/
def memcpy (m : Memory) (dst src size : Nat) : Nat × Memory :=
  let (size₁, d8, s8, m₁) :=
    if (dst ||| src) &&& nxWordMask = 0 then copyWords size dst src m else (size, dst, src, m)
  (dst, copyBytes size₁ d8 s8 m₁)

/-- The word loop of {lit}`memmove`, from the end. -/
def moveWords : (size d8 s8 : Nat) → Memory → Nat × Nat × Nat × Memory
  | size + 8, d8, s8, m =>
      let d8 := retreat d8 8
      let s8 := retreat s8 8
      moveWords size d8 s8 (storeWord m d8 (loadWord m s8))
  | size, d8, s8, m => (size, d8, s8, m)

/-- The byte loop of {lit}`memmove`, from the end. -/
def moveBytes : (size d8 s8 : Nat) → Memory → Memory
  | 0, _, _, m => m
  | size + 1, d8, s8, m =>
      moveBytes size (retreat d8 1) (retreat s8 1)
        (storeByte m (retreat d8 1) (m (retreat s8 1)))

/-- {lit}`memmove`. -/
def memmove (m : Memory) (dst src size : Nat) : Nat × Memory :=
  if dst = src ∨ size = 0 then (dst, m)
  else if dst < src ∨ dst ≥ advance src size then memcpy m dst src size
  else
    let d8 := advance dst size
    let s8 := advance src size
    let (size₁, d8, s8, m₁) :=
      if (d8 ||| s8) &&& nxWordMask = 0 then moveWords size d8 s8 m else (size, d8, s8, m)
    (dst, moveBytes size₁ d8 s8 m₁)

/-! ## Pointers and words -/

theorem advance_eq {p n : Nat} (h : p + n < 2 ^ 64) : advance p n = p + n :=
  Nat.mod_eq_of_lt h

theorem advance_zero {p : Nat} (h : p < 2 ^ 64) : advance p 0 = p :=
  Nat.mod_eq_of_lt h

theorem advance_advance (p m n : Nat) : advance (advance p m) n = advance p (m + n) := by
  unfold advance
  omega

/-- Going back from the end of a range, which may be the end of the address space. -/
theorem retreat_advance {p m n : Nat} (h : p + (m + n) ≤ 2 ^ 64) (hn : 0 < n) :
    retreat (advance p (m + n)) n = p + m := by
  unfold retreat advance
  omega

theorem storeWord_loadWord (m : Memory) (p q : Nat) :
    storeWord m p (loadWord m q) = splice m p (bytesAt m q nxWordSize) := by
  unfold storeWord loadWord
  rw [leBytes_leNat (length_bytesAt m q nxWordSize)]

theorem storeByte_load (m : Memory) (p q : Nat) :
    storeByte m p (m q) = splice m p (bytesAt m q 1) :=
  update_eq_splice m p q

theorem storeByte_eq_splice (m : Memory) (p : Nat) (b : UInt8) :
    storeByte m p b = splice m p [b] := by
  funext a
  unfold storeByte
  by_cases ha : a = p
  · rw [ha, Function.update_self]
    apply Option.some.inj
    have hself : some (splice m p [b] (p + 0)) = [b][0]? := splice_of_mem m (by simp)
    rw [Nat.add_zero] at hself
    exact hself.symm
  · rw [Function.update_of_ne ha]
    by_cases hlt : a < p
    · rw [splice_of_lt _ _ hlt]
    · rw [splice_of_ge _ (by rw [List.length_singleton]; omega)]

/-- Each round of the pattern loop puts one more byte in front. -/
theorem wordPattern_eq (byte : UInt8) {i k : Nat} (h : i + k ≤ 8) :
    wordPattern byte i (leNat (List.replicate k byte)) =
      leNat (List.replicate (i + k) byte) := by
  induction i generalizing k with
  | zero => rw [wordPattern, Nat.zero_add]
  | succ i ih =>
      have hlt : leNat (List.replicate k byte) < 256 ^ 7 := by
        refine Nat.lt_of_lt_of_le (leNat_lt _) (Nat.pow_le_pow_right (by decide) ?_)
        rw [List.length_replicate]
        omega
      have hshift : leNat (List.replicate k byte) <<< 8 = leNat (List.replicate k byte) * 2 ^ 8 :=
        Nat.shiftLeft_eq _ _
      have hword : (leNat (List.replicate k byte) <<< 8) % 2 ^ 64 ||| byte.toNat =
          leNat (List.replicate (k + 1) byte) := by
        rw [Nat.mod_eq_of_lt (by rw [hshift]; omega),
          ← Nat.shiftLeft_add_eq_or_of_lt (by exact byte.toNat_lt), hshift, List.replicate_succ, leNat]
        omega
      rw [wordPattern, hword, ih (by omega)]
      congr 2
      omega

theorem storeWord_pattern (m : Memory) (p : Nat) (byte : UInt8) :
    storeWord m p (wordPattern byte nxWordSize 0) = splice m p (List.replicate 8 byte) := by
  have hpattern : wordPattern byte nxWordSize 0 = leNat (List.replicate 8 byte) :=
    wordPattern_eq byte (i := 8) (k := 0) le_rfl
  unfold storeWord
  rw [hpattern, leBytes_leNat (by rw [List.length_replicate]; rfl)]

/-! ## Filling -/

variable {m m₀ : Memory} {dst src size i k : Nat} {byte : UInt8}

/-- Some more copies of the byte behind the ones that are there. -/
theorem splice_more (m : Memory) (dst i j : Nat) (byte : UInt8) :
    splice (splice m dst (List.replicate i byte)) (dst + i) (List.replicate j byte) =
      splice m dst (List.replicate (i + j) byte) := by
  have happend := splice_append m dst (List.replicate i byte) (List.replicate j byte)
  rw [List.length_replicate, List.replicate_append_replicate] at happend
  exact happend

theorem storeByte_more (h : dst + (i + 1) ≤ 2 ^ 64) :
    storeByte (splice m dst (List.replicate i byte)) (advance dst i) byte =
      splice m dst (List.replicate (i + 1) byte) := by
  rw [advance_eq (by omega), storeByte_eq_splice]
  exact splice_more m dst i 1 byte

/-- The first loop of {lit}`memset` fills the front of the range. -/
theorem setAlign_eq (m : Memory) (byte : UInt8) (h : dst + (i + size) ≤ 2 ^ 64) :
    ∃ j ≤ size, setAlign byte size (advance dst i) (splice m dst (List.replicate i byte)) =
      (size - j, advance dst (i + j), splice m dst (List.replicate (i + j) byte)) := by
  induction size generalizing i with
  | zero => exact ⟨0, le_rfl, rfl⟩
  | succ size ih =>
      rw [setAlign]
      split
      next =>
        obtain ⟨j, hj, hrun⟩ := ih (i := i + 1) (by omega)
        refine ⟨j + 1, by omega, ?_⟩
        rw [storeByte_more (by omega), advance_advance, hrun, Nat.add_sub_add_right,
          Nat.add_right_comm i 1 j, Nat.add_assoc i j 1]
      next => exact ⟨0, Nat.zero_le _, rfl⟩

/-- The word loop of {lit}`memset` fills the next part of the range. -/
theorem setWords_eq (m : Memory) (byte : UInt8) (h : dst + (i + size) ≤ 2 ^ 64) :
    ∃ j ≤ size, setWords (wordPattern byte nxWordSize 0) size (advance dst i)
        (splice m dst (List.replicate i byte)) =
      (size - j, advance dst (i + j), splice m dst (List.replicate (i + j) byte)) := by
  induction size using Nat.strong_induction_on generalizing i with
  | _ size ih =>
      by_cases hword : size < 8
      · refine ⟨0, Nat.zero_le _, ?_⟩
        rw [setWords]
        · rfl
        · omega
      · obtain ⟨size, rfl⟩ := Nat.exists_eq_add_of_le (Nat.not_lt.mp hword)
        rw [Nat.add_comm 8 size]
        obtain ⟨j, hj, hrun⟩ := ih size (by omega) (i := i + 8) (by omega)
        refine ⟨j + 8, by omega, ?_⟩
        rw [setWords, storeWord_pattern, advance_advance, advance_eq (p := dst) (n := i) (by omega),
          splice_more, hrun, Nat.add_sub_add_right, Nat.add_right_comm i 8 j, Nat.add_assoc i j 8]

/-- The last loop of {lit}`memset` fills the rest. -/
theorem setBytes_eq (m : Memory) (byte : UInt8) (h : dst + (i + size) ≤ 2 ^ 64) :
    setBytes byte size (advance dst i) (splice m dst (List.replicate i byte)) =
      splice m dst (List.replicate (i + size) byte) := by
  induction size generalizing i with
  | zero => rfl
  | succ size ih =>
      rw [setBytes, storeByte_more (by omega), advance_advance, ih (by omega),
        Nat.add_right_comm i 1 size, Nat.add_assoc i size 1]

/-- {lit}`memset` fills the range with the byte. -/
theorem memset_eq (m : Memory) (hdst : dst < 2 ^ 64) (h : dst + size ≤ 2 ^ 64) (value : Int) :
    memset m dst value size =
      (dst, splice m dst (List.replicate size (UInt8.ofInt value))) := by
  have hall : dst + (0 + size) ≤ 2 ^ 64 := by omega
  obtain ⟨j₁, hj₁, hfirst⟩ := setAlign_eq m (UInt8.ofInt value) hall
  have hrest : dst + (0 + j₁ + (size - j₁)) ≤ 2 ^ 64 := by omega
  obtain ⟨j₂, hj₂, hsecond⟩ := setWords_eq m (UInt8.ofInt value) hrest
  have htail : dst + (0 + j₁ + j₂ + (size - j₁ - j₂)) ≤ 2 ^ 64 := by omega
  have hthird := setBytes_eq m (UInt8.ofInt value) htail
  rw [List.replicate_zero, splice_nil, advance_zero hdst] at hfirst
  unfold memset
  dsimp only
  rw [hfirst]
  dsimp only
  rw [hsecond]
  dsimp only
  rw [hthird]
  congr 3
  omega

/-! ## Copying -/

/-- One more word at the end of the copied part. -/
theorem storeWord_copied (hdst : dst + (i + 8) ≤ 2 ^ 64) (hsrc : src + (i + 8) ≤ 2 ^ 64)
    (hsafe : src + i + 8 ≤ dst ∨ dst ≤ src) :
    storeWord (copied m dst src 0 i) (advance dst i)
        (loadWord (copied m dst src 0 i) (advance src i)) =
      copied m dst src 0 (i + 8) := by
  rw [storeWord_loadWord, advance_eq (by omega), advance_eq (by omega)]
  exact copied_extend_right (Nat.zero_le i) (by unfold nxWordSize; omega)

/-- One more byte at the end of the copied part. -/
theorem storeByte_copied (hdst : dst + (i + 1) ≤ 2 ^ 64) (hsrc : src + (i + 1) ≤ 2 ^ 64)
    (hsafe : src + i + 1 ≤ dst ∨ dst ≤ src) :
    storeByte (copied m dst src 0 i) (advance dst i) (copied m dst src 0 i (advance src i)) =
      copied m dst src 0 (i + 1) := by
  rw [storeByte_load, advance_eq (by omega), advance_eq (by omega)]
  exact copied_extend_right (Nat.zero_le i) (by omega)

/-- The word loop of {lit}`memcpy` copies the front of the range. -/
theorem copyWords_eq (hdst : dst + (i + size) ≤ 2 ^ 64) (hsrc : src + (i + size) ≤ 2 ^ 64)
    (hsafe : src + (i + size) ≤ dst ∨ dst ≤ src) :
    ∃ j ≤ size, copyWords size (advance dst i) (advance src i) (copied m dst src 0 i) =
      (size - j, advance dst (i + j), advance src (i + j), copied m dst src 0 (i + j)) := by
  induction size using Nat.strong_induction_on generalizing i with
  | _ size ih =>
      by_cases hword : size < 8
      · refine ⟨0, Nat.zero_le _, ?_⟩
        rw [copyWords]
        · rfl
        · omega
      · obtain ⟨size, rfl⟩ := Nat.exists_eq_add_of_le (Nat.not_lt.mp hword)
        rw [Nat.add_comm 8 size]
        obtain ⟨j, hj, hrun⟩ := ih size (by omega) (i := i + 8) (by omega) (by omega) (by omega)
        refine ⟨j + 8, by omega, ?_⟩
        rw [copyWords, storeWord_copied (by omega) (by omega) (by omega), advance_advance,
          advance_advance, hrun, Nat.add_sub_add_right, Nat.add_right_comm i 8 j,
          Nat.add_assoc i j 8]

/-- The byte loop of {lit}`memcpy` copies the rest. -/
theorem copyBytes_eq (hdst : dst + (i + size) ≤ 2 ^ 64) (hsrc : src + (i + size) ≤ 2 ^ 64)
    (hsafe : src + (i + size) ≤ dst ∨ dst ≤ src) :
    copyBytes size (advance dst i) (advance src i) (copied m dst src 0 i) =
      copied m dst src 0 (i + size) := by
  induction size generalizing i with
  | zero => rfl
  | succ size ih =>
      rw [copyBytes, storeByte_copied (by omega) (by omega) (by omega), advance_advance,
        advance_advance, ih (by omega) (by omega) (by omega), Nat.add_right_comm i 1 size,
        Nat.add_assoc i size 1]

/-- {lit}`memcpy` copies a range that ends before the destination, or one that begins at the
destination or behind it. -/
theorem memcpy_eq (m : Memory) (hd : dst < 2 ^ 64) (hs : src < 2 ^ 64) (hdst : dst + size ≤ 2 ^ 64)
    (hsrc : src + size ≤ 2 ^ 64) (hsafe : src + size ≤ dst ∨ dst ≤ src) :
    memcpy m dst src size = (dst, copied m dst src 0 size) := by
  have hstart : ∃ j ≤ size, (if (dst ||| src) &&& nxWordMask = 0 then copyWords size dst src m
      else (size, dst, src, m)) =
        (size - j, advance dst j, advance src j, copied m dst src 0 j) := by
    split
    next =>
      have hdst₀ : dst + (0 + size) ≤ 2 ^ 64 := by omega
      have hsrc₀ : src + (0 + size) ≤ 2 ^ 64 := by omega
      obtain ⟨j, hj, hrun⟩ := copyWords_eq (m := m) hdst₀ hsrc₀ (by omega)
      rw [advance_zero hd, advance_zero hs, copied_empty, Nat.zero_add] at hrun
      exact ⟨j, hj, hrun⟩
    next =>
      refine ⟨0, Nat.zero_le _, ?_⟩
      rw [advance_zero hd, advance_zero hs, copied_empty, Nat.sub_zero]
  obtain ⟨j, hj, hrun⟩ := hstart
  have hdst₁ : dst + (j + (size - j)) ≤ 2 ^ 64 := by omega
  have hsrc₁ : src + (j + (size - j)) ≤ 2 ^ 64 := by omega
  have hrest := copyBytes_eq (m := m) hdst₁ hsrc₁ (by omega)
  unfold memcpy
  rw [hrun]
  dsimp only
  rw [hrest, Nat.add_sub_cancel' hj]

/-! ## Moving -/

/-- One more word at the front of the copied part. -/
theorem storeWord_copied_front (hdst : dst + (k + 8) ≤ 2 ^ 64) (hsrc : src + (k + 8) ≤ 2 ^ 64)
    (hle : k + 8 ≤ size) (hsafe : src ≤ dst) :
    storeWord (copied m dst src (k + 8) size) (retreat (advance dst (k + 8)) 8)
        (loadWord (copied m dst src (k + 8) size) (retreat (advance src (k + 8)) 8)) =
      copied m dst src k size := by
  rw [storeWord_loadWord, retreat_advance hdst (by omega), retreat_advance hsrc (by omega)]
  exact copied_extend_left hle hsafe

/-- One more byte at the front of the copied part. -/
theorem storeByte_copied_front (hdst : dst + (k + 1) ≤ 2 ^ 64) (hsrc : src + (k + 1) ≤ 2 ^ 64)
    (hle : k + 1 ≤ size) (hsafe : src ≤ dst) :
    storeByte (copied m dst src (k + 1) size) (retreat (advance dst (k + 1)) 1)
        (copied m dst src (k + 1) size (retreat (advance src (k + 1)) 1)) =
      copied m dst src k size := by
  rw [storeByte_load, retreat_advance hdst (by omega), retreat_advance hsrc (by omega)]
  exact copied_extend_left hle hsafe

/-- Going back by one piece from the end of a range. -/
theorem retreat_front {p k n : Nat} (h : p + (k + n) ≤ 2 ^ 64) (hn : 0 < n) :
    retreat (advance p (k + n)) n = advance p k := by
  rw [retreat_advance h hn, advance_eq (by omega)]

/-- The word loop of {lit}`memmove` copies the end of the range. -/
theorem moveWords_eq (hdst : dst + size ≤ 2 ^ 64) (hsrc : src + size ≤ 2 ^ 64) (hsafe : src ≤ dst)
    (hk : k ≤ size) :
    ∃ j ≤ k, moveWords k (advance dst k) (advance src k) (copied m dst src k size) =
      (j, advance dst j, advance src j, copied m dst src j size) := by
  induction k using Nat.strong_induction_on with
  | _ k ih =>
      by_cases hword : k < 8
      · refine ⟨k, le_rfl, ?_⟩
        rw [moveWords]
        omega
      · obtain ⟨k, rfl⟩ := Nat.exists_eq_add_of_le (Nat.not_lt.mp hword)
        rw [Nat.add_comm 8 k] at hk ⊢
        obtain ⟨j, hj, hrun⟩ := ih k (by omega) (by omega)
        refine ⟨j, by omega, ?_⟩
        rw [moveWords, storeWord_copied_front (by omega) (by omega) hk hsafe,
          retreat_front (by omega) (by omega), retreat_front (by omega) (by omega), hrun]

/-- The byte loop of {lit}`memmove` copies the rest. -/
theorem moveBytes_eq (hdst : dst + size ≤ 2 ^ 64) (hsrc : src + size ≤ 2 ^ 64) (hsafe : src ≤ dst)
    (hk : k ≤ size) :
    moveBytes k (advance dst k) (advance src k) (copied m dst src k size) =
      copied m dst src 0 size := by
  induction k with
  | zero => rfl
  | succ k ih =>
      rw [moveBytes, storeByte_copied_front (by omega) (by omega) hk hsafe,
        retreat_front (by omega) (by omega), retreat_front (by omega) (by omega),
        ih (by omega)]

/-- {lit}`memmove` copies any range onto any other. -/
theorem memmove_eq (m : Memory) (hd : dst < 2 ^ 64) (hs : src < 2 ^ 64) (hdst : dst + size ≤ 2 ^ 64)
    (hsrc : src + size ≤ 2 ^ 64) :
    memmove m dst src size = (dst, copied m dst src 0 size) := by
  unfold memmove
  split
  next hnone =>
    rcases hnone with rfl | rfl
    · rw [copied_self]
    · rw [copied_empty]
  next hmove =>
    rw [not_or] at hmove
    split
    next hforward =>
      refine memcpy_eq m hd hs hdst hsrc ?_
      rcases hforward with hlt | hge
      · exact Or.inr (by omega)
      · -- the end of the source wraps only where the destination is in front of it
        unfold advance at hge
        omega
    next hback =>
      have hsafe : src ≤ dst := by omega
      have hstart : ∃ j ≤ size, (if (advance dst size ||| advance src size) &&& nxWordMask = 0 then
            moveWords size (advance dst size) (advance src size) m
          else (size, advance dst size, advance src size, m)) =
            (j, advance dst j, advance src j, copied m dst src j size) := by
        split
        next =>
          obtain ⟨j, hj, hrun⟩ := moveWords_eq (m := m) hdst hsrc hsafe le_rfl
          rw [copied_empty] at hrun
          exact ⟨j, hj, hrun⟩
        next => exact ⟨size, le_rfl, by rw [copied_empty]⟩
      obtain ⟨j, hj, hrun⟩ := hstart
      dsimp only
      rw [hrun]
      dsimp only
      rw [moveBytes_eq hdst hsrc hsafe hj]

/-- The three routines return their destination.  {lit}`memset` fills exactly the range,
{lit}`memcpy` on disjoint ranges and {lit}`memmove` on any two give the destination what the source
held at the start, and no other byte changes. -/
theorem memory_routines (m : Memory) (dst src size : Nat) (value : Int) (hd : dst < 2 ^ 64)
    (hs : src < 2 ^ 64) (hdst : dst + size ≤ 2 ^ 64) (hsrc : src + size ≤ 2 ^ 64) :
    ((memset m dst value size).1 = dst ∧ ∀ a, (memset m dst value size).2 a =
      if dst ≤ a ∧ a < dst + size then UInt8.ofInt value else m a) ∧
    (dst + size ≤ src ∨ src + size ≤ dst →
      (memcpy m dst src size).1 = dst ∧ ∀ a, (memcpy m dst src size).2 a =
        if dst ≤ a ∧ a < dst + size then m (src + (a - dst)) else m a) ∧
    ((memmove m dst src size).1 = dst ∧ ∀ a, (memmove m dst src size).2 a =
      if dst ≤ a ∧ a < dst + size then m (src + (a - dst)) else m a) := by
  refine ⟨?_, fun hdisjoint => ?_, ?_⟩
  · rw [memset_eq m hd hdst]
    refine ⟨rfl, fun a => ?_⟩
    have hbytes : List.replicate size (UInt8.ofInt value) =
        bytesAt (fun _ => UInt8.ofInt value) 0 size := by
      unfold bytesAt
      rw [List.map_const', List.length_range]
    dsimp only
    rw [hbytes, splice_bytesAt]
  · rw [memcpy_eq m hd hs hdst hsrc (by omega)]
    exact ⟨rfl, fun a => rfl⟩
  · rw [memmove_eq m hd hs hdst hsrc]
    exact ⟨rfl, fun a => rfl⟩

/-- Twelve bytes move by one place, in an overlapping range at no word boundary. -/
theorem memory_routines_small :
    (memmove (fun a => UInt8.ofNat a) 1002 1001 12).2 1013 = UInt8.ofNat 1012 := by
  have hmove := (memory_routines (fun a => UInt8.ofNat a) 1002 1001 12 0 (by decide) (by decide)
    (by decide) (by decide)).2.2.2 1013
  rw [hmove]
  decide

end KernelLib
end Nyxis
