import Nyxis.Mm.UserRange
import Nyxis.Status

/-!
# Copying from user memory

The functions of {lit}`kernel/syscall/uaccess.c` through which system calls read user
memory.  A user byte is read by the page walk of the processor, and a copy faults where
the walk finds no page.  The buffer of the kernel is not part of user memory: it is a map
from addresses to bytes of its own, and it is the state of these functions.

Main results:

- Definition {lit}`UserByte`: the byte that a user program may read at an address.
- Theorem {lit}`copyFromUser_byte`: copying one byte.
- Theorem {lit}`user_pointer_checks_exact`: which ranges the check accepts, and which
  strings are copied.
-/

namespace Nyxis
namespace Syscall

open Mm

/-! ## The functions -/

/-- The bytes of the kernel. -/
abbrev KernelBytes : Type :=
  Nat → UInt8

/-- Computations that write kernel buffers. -/
abbrev UaccessM := Eff Nstatus KernelBytes

/-- The byte the processor reads at a virtual address. -/
def byteAt (mem : Nat → Nat → Nat) (pml4 addr : Nat) : Option UInt8 :=
  (translate mem pml4 (addr / pageSize * pageSize)).map (fun x =>
    UInt8.ofNat (mem x.1 (addr % pageSize / 8) / 256 ^ (addr % 8)))

/-- {lit}`nx_uaccess_copy`: copy byte by byte; a byte that is not mapped ends the copy with
a fault. -/
def nxUaccessCopy (mem : Nat → Nat → Nat) (pml4 : Nat) : (len dst src : Nat) → UaccessM Unit
  | 0, _, _ => pure ()
  | len + 1, dst, src =>
      match byteAt mem pml4 src with
      | none => Eff.fail .NinvalidPointer
      | some b => do
          Eff.modify (fun k => Function.update k dst b)
          nxUaccessCopy mem pml4 len (dst + 1) (src + 1)

/-- {lit}`copy_from_user` of the current process, which is given by its top-level table. -/
def copyFromUser (mem : Nat → Nat → Nat) (current : Option Nat) (dst src len : Nat) :
    UaccessM Unit :=
  if len = 0 then
    pure ()
  else if dst = 0 then
    Eff.fail .NinvalidArg
  else
    match current with
    | none => Eff.fail .NnotInitialized
    | some pml4 =>
        if pagingIsUserRange mem pml4 src len false then
          nxUaccessCopy mem pml4 len dst src
        else
          Eff.fail .NinvalidPointer

/-- The loop of {lit}`copy_string_from_user` from index {lit}`i` on, with {lit}`n` bytes of
the buffer left. -/
def copyStringLoop (mem : Nat → Nat → Nat) (current : Option Nat) (dst src max : Nat) :
    (n i : Nat) → UaccessM Unit
  | 0, _ => do
      Eff.modify (fun k => Function.update k (dst + max - 1) 0)
      Eff.fail .NpathTooLong
  | n + 1, i => do
      let addr := (src + i) % 2 ^ 64
      if addr < src then
        Eff.fail .NinvalidPointer
      else
        copyFromUser mem current (dst + i) addr 1
        let b ← Eff.gets (fun k => k (dst + i))
        if b = 0 then
          pure ()
        else
          copyStringLoop mem current dst src max n (i + 1)

/-- {lit}`copy_string_from_user`. -/
def copyStringFromUser (mem : Nat → Nat → Nat) (current : Option Nat) (dst src max : Nat) :
    UaccessM Unit :=
  if dst = 0 ∨ max = 0 then
    Eff.fail .NinvalidArg
  else if src = 0 then
    Eff.fail .NinvalidPointer
  else
    copyStringLoop mem current dst src max max 0

/-! ## What the user may read -/

/-- The byte at an address of an address space, if its page is mapped for the user. -/
def UserByte (w : World) (s addr : Nat) : Option UInt8 :=
  match w.maps.user s (addr / pageSize * pageSize) with
  | none => none
  | some (f, flags) =>
      if hasFlag flags pageUser then
        some (UInt8.ofNat (w.memory.mem f (addr % pageSize / 8) / 256 ^ (addr % 8)))
      else
        none

variable {boot : Finset Nat} {w₀ w : World} {s : Nat}

/-- The pages of an open address space are what its tables translate. -/
theorem maps_user_eq (hs : s ∈ w.spaces) {v : Nat} (hv : UserPage v) :
    w.maps.user s v = translate w.memory.mem s v := by
  simp only [World.maps]
  rw [if_pos ⟨hs, hv⟩]

/-- Outside the user half nothing can be read. -/
theorem userByte_outside {addr : Nat} (h : userSpaceEnd ≤ addr) : UserByte w s addr = none := by
  have hend : userSpaceEnd = 0x0000800000000000 := rfl
  have hsize : pageSize = 4096 := rfl
  have hnone : w.maps.user s (addr / pageSize * pageSize) = none := by
    simp only [World.maps]
    rw [if_neg]
    rintro ⟨_, hlt, _⟩
    rw [hsize] at hlt
    omega
  rw [UserByte, hnone]

/-- The check of a single byte. -/
theorem userRange_byte (h : w.Inv boot w₀) (hs : s ∈ w.spaces) {addr : Nat}
    (haddr : addr < 2 ^ 64) :
    pagingIsUserRange w.memory.mem s addr 1 false = (UserByte w s addr).isSome := by
  obtain ⟨free, hled⟩ := h.ledger
  have hend : userSpaceEnd = 0x0000800000000000 := rfl
  have hsize : pageSize = 4096 := rfl
  rw [Bool.eq_iff_iff, hled.pagingIsUserRange_iff hs haddr (by decide)]
  by_cases hin : addr < userSpaceEnd
  · have hpage : UserPage (addr / pageSize * pageSize) := by
      refine ⟨?_, Nat.mul_mod_left _ _⟩
      rw [hsize]
      omega
    have hone : (∀ v, UserPage v → v < addr + 1 → addr < v + pageSize →
        UserAccess false (translate w.memory.mem s v)) ↔
        UserAccess false (translate w.memory.mem s (addr / pageSize * pageSize)) := by
      constructor
      · intro hall
        refine hall _ hpage ?_ ?_
        · rw [hsize]
          omega
        · rw [hsize]
          omega
      · intro hacc v hv hlt hgt
        have heq : v = addr / pageSize * pageSize := by
          have hv' := hv.2
          rw [hsize] at *
          omega
        rw [heq]
        exact hacc
    rw [hone, UserByte, maps_user_eq hs hpage]
    cases translate w.memory.mem s (addr / pageSize * pageSize) with
    | none => simp [UserAccess]
    | some x =>
        obtain ⟨f, flags⟩ := x
        have hle : addr + 1 ≤ userSpaceEnd := hin
        cases huser : hasFlag flags pageUser <;> simp [UserAccess, huser, hle]
  · rw [userByte_outside (by omega)]
    refine iff_of_false ?_ (by decide)
    rintro (hcon | ⟨hcon, _⟩)
    · cases hcon
    · omega

/-- What may be read is what the processor reads. -/
theorem byteAt_of_userByte (hs : s ∈ w.spaces) {addr : Nat} {b : UInt8}
    (h : UserByte w s addr = some b) : byteAt w.memory.mem s addr = some b := by
  have hsize : pageSize = 4096 := rfl
  have hend : userSpaceEnd = 0x0000800000000000 := rfl
  by_cases hin : addr < userSpaceEnd
  · have hpage : UserPage (addr / pageSize * pageSize) := by
      refine ⟨?_, Nat.mul_mod_left _ _⟩
      rw [hsize]
      omega
    rw [UserByte, maps_user_eq hs hpage] at h
    rw [byteAt]
    cases htr : translate w.memory.mem s (addr / pageSize * pageSize) with
    | none =>
        rw [htr] at h
        cases h
    | some x =>
        rw [htr] at h
        dsimp only at h
        split at h
        next => exact h
        next => cases h
  · rw [userByte_outside (by omega)] at h
    cases h

/-- Copying one byte succeeds exactly if the user may read it. -/
theorem copyFromUser_byte (h : w.Inv boot w₀) (hs : s ∈ w.spaces) {dst addr : Nat}
    (hdst : dst ≠ 0) (haddr : addr < 2 ^ 64) (k : KernelBytes) :
    copyFromUser w.memory.mem (some s) dst addr 1 k =
      match UserByte w s addr with
      | none => (.error .NinvalidPointer, k)
      | some b => (.ok (), Function.update k dst b) := by
  have hrange := userRange_byte h hs haddr
  rw [copyFromUser, if_neg (by decide), if_neg hdst]
  cases hb : UserByte w s addr with
  | none =>
      rw [hb, Option.isSome_none] at hrange
      simp [hrange]
  | some b =>
      rw [hb, Option.isSome_some] at hrange
      simp [hrange, nxUaccessCopy, byteAt_of_userByte hs hb]

/-! ## Strings -/

/-- A string ends at the given length: the bytes before its end may be read, and the end is
the first zero. -/
structure EndsAt (w : World) (s src n : Nat) : Prop where
  before : ∀ j < n, ∃ b, UserByte w s (src + j) = some b ∧ b ≠ 0
  zero : UserByte w s (src + n) = some 0

/-- A readable zero with readable bytes before it makes a string. -/
theorem exists_endsAt {src n : Nat} (hzero : UserByte w s (src + n) = some 0)
    (hread : ∀ j < n, (UserByte w s (src + j)).isSome) : ∃ n' ≤ n, EndsAt w s src n' := by
  have hex : ∃ j, UserByte w s (src + j) = some 0 := ⟨n, hzero⟩
  have hle : Nat.find hex ≤ n := Nat.find_min' hex hzero
  refine ⟨Nat.find hex, hle, ?_, Nat.find_spec hex⟩
  intro j hj
  obtain ⟨b, hb⟩ := Option.isSome_iff_exists.mp (hread j (by omega))
  refine ⟨b, hb, fun hcon => Nat.find_min hex hj ?_⟩
  rw [hb, hcon]

/-- The buffer holds the bytes of the string up to the given index. -/
def Received (w : World) (s src dst : Nat) (k : KernelBytes) (i : Nat) : Prop :=
  ∀ j < i, UserByte w s (src + j) = some (k (dst + j))

/-- What a string copy leaves behind. -/
structure Copied (w : World) (s src dst max : Nat) (k : KernelBytes) (r : Except Nstatus Unit)
    (k' : KernelBytes) : Prop where
  ok_iff : r = .ok () ↔ ∃ n < max, EndsAt w s src n
  string : ∀ n, r = .ok () → EndsAt w s src n → Received w s src dst k' (n + 1)
  inside : ∀ x, x < dst ∨ dst + max ≤ x → k' x = k x

/-- Two ends of a string are one. -/
theorem EndsAt.unique {src n n' : Nat} (h : EndsAt w s src n) (h' : EndsAt w s src n') :
    n = n' := by
  rcases Nat.lt_trichotomy n n' with hlt | heq | hlt
  · obtain ⟨b, hb, hne⟩ := h'.before n hlt
    rw [h.zero] at hb
    cases hb
    exact absurd rfl hne
  · exact heq
  · obtain ⟨b, hb, hne⟩ := h.before n' hlt
    rw [h'.zero] at hb
    cases hb
    exact absurd rfl hne

/-- The loop from an index on whose bytes before it have been copied and are not zero. -/
theorem copyStringLoop_copied (h : w.Inv boot w₀) (hs : s ∈ w.spaces) {dst src max : Nat}
    (hdst : dst ≠ 0) (hsrc : src < 2 ^ 64) (hmax : max < 2 ^ 64) (k₀ : KernelBytes) (n : Nat)
    {i : Nat} (hi : i + n = max) {k : KernelBytes} (hpos : 0 < max) (hreceived : Received w s src dst k i)
    (hne : ∀ j < i, UserByte w s (src + j) ≠ some 0)
    (hframe : ∀ x, x < dst ∨ dst + max ≤ x → k x = k₀ x) :
    Eff.Post (copyStringLoop w.memory.mem (some s) dst src max n i) k
      (Copied w s src dst max k₀) := by
  induction n generalizing i k with
  | zero =>
      refine Eff.post_of_eq rfl ⟨iff_of_false nofun ?_, fun _ => nofun, fun x hx => ?_⟩
      · rintro ⟨n, hn, hends⟩
        exact hne n (by omega) hends.zero
      · have hother : x ≠ dst + max - 1 := by omega
        exact (Function.update_of_ne hother 0 k).trans (hframe x hx)
  | succ n ih =>
      have hend : userSpaceEnd = 0x0000800000000000 := rfl
      -- a byte that cannot be read ends the copy, and there is no string
      have hstop : ∀ e, UserByte w s (src + i) = none →
          Copied w s src dst max k₀ (.error e) k := by
        intro e hnone
        refine ⟨iff_of_false nofun ?_, fun _ => nofun, hframe⟩
        rintro ⟨n', _, hends⟩
        rcases Nat.lt_trichotomy i n' with hlt | heq | hlt
        · obtain ⟨b, hb, _⟩ := hends.before i hlt
          rw [hnone] at hb
          cases hb
        · have hzero := hends.zero
          rw [← heq, hnone] at hzero
          cases hzero
        · exact hne n' hlt hends.zero
      rw [copyStringLoop]
      split
      next hwrap =>
        refine Eff.post_of_eq rfl (hstop _ (userByte_outside ?_))
        by_contra hcon
        rw [Nat.mod_eq_of_lt (by omega)] at hwrap
        omega
      next hwrap =>
      by_cases hlt : src + i < 2 ^ 64
      swap
      · exfalso
        apply hwrap
        have hmod : (src + i) % 2 ^ 64 = src + i - 2 ^ 64 := by omega
        omega
      rw [Nat.mod_eq_of_lt hlt]
      have hne' : dst + i ≠ 0 := by omega
      have hrun := copyFromUser_byte h hs hne' hlt k
      cases hb : UserByte w s (src + i) with
      | none =>
          rw [hb] at hrun
          exact Eff.post_bind_error hrun (hstop _ hb)
      | some b =>
          rw [hb] at hrun
          refine Eff.post_bind_ok hrun (Eff.post_gets_bind ?_)
          rw [Function.update_self]
          have hreceived' : Received w s src dst (Function.update k (dst + i) b) (i + 1) := by
            intro j hj
            by_cases heq : j = i
            · rw [heq, Function.update_self]
              exact hb
            · rw [Function.update_of_ne (by omega)]
              exact hreceived j (by omega)
          have hframe' : ∀ x, x < dst ∨ dst + max ≤ x →
              Function.update k (dst + i) b x = k₀ x := by
            intro x hx
            rw [Function.update_of_ne (by omega)]
            exact hframe x hx
          split
          next hzero =>
            have hends : EndsAt w s src i := by
              refine ⟨fun j hj => ⟨_, hreceived j hj, fun hcon => ?_⟩, by rw [hb, hzero]⟩
              exact hne j hj (by rw [hreceived j hj, hcon])
            refine Eff.post_of_eq rfl ⟨iff_of_true rfl ⟨i, by omega, hends⟩, ?_, hframe'⟩
            intro n' _ hends'
            rw [← hends.unique hends']
            exact hreceived'
          next hzero =>
            refine ih (by omega) hreceived' (fun j hj => ?_) hframe'
            by_cases heq : j = i
            · rw [heq, hb]
              intro hcon
              cases hcon
              exact hzero rfl
            · exact hne j (by omega)

theorem copyStringFromUser_copied (h : w.Inv boot w₀) (hs : s ∈ w.spaces) {dst src max : Nat}
    (hdst : dst ≠ 0) (hsrc : src < 2 ^ 64) (hmax : max < 2 ^ 64) (hnull : src ≠ 0)
    (k : KernelBytes) :
    Eff.Post (copyStringFromUser w.memory.mem (some s) dst src max) k
      (Copied w s src dst max k) := by
  unfold copyStringFromUser
  split
  next hbad =>
    have hzero : max = 0 := by omega
    refine Eff.post_of_eq rfl ⟨iff_of_false nofun ?_, fun _ => nofun, fun _ _ => rfl⟩
    rintro ⟨n, hn, _⟩
    omega
  next hgood =>
  exact copyStringLoop_copied h hs hdst hsrc hmax k max (by omega) (by omega)
    (fun j hj => by omega) (fun j hj => by omega) (fun _ _ => rfl)

/-- In every state that callers of the paging interface can bring about, and for each of its
address spaces: the range check accepts exactly the empty range and the ranges that do not
wrap around, end in the user half and consist of pages mapped for the access; and a string is
copied exactly if its address is not zero and a zero follows within {lit}`max` bytes, with all
bytes before it readable.  Then the buffer holds the string, and in no case is a byte outside
of the buffer written. -/
theorem user_pointer_checks_exact (h : Booted boot w₀) (hr : World.Reachable w₀ w)
    (hs : s ∈ w.spaces) :
    (∀ start len write, start < 2 ^ 64 → len < 2 ^ 64 →
      (pagingIsUserRange w.memory.mem s start len write = true ↔ len = 0 ∨
        (start + len < 2 ^ 64 ∧ start + len ≤ userSpaceEnd ∧
          ∀ v, v % pageSize = 0 → v < start + len → start < v + pageSize →
            UserAccess write (w.maps.user s v)))) ∧
    (∀ dst src max k, dst ≠ 0 → src < 2 ^ 64 → max < 2 ^ 64 →
      Eff.Post (copyStringFromUser w.memory.mem (some s) dst src max) k (fun r k' =>
        (r = .ok () ↔ src ≠ 0 ∧ ∃ n < max, UserByte w s (src + n) = some 0 ∧
          ∀ j < n, (UserByte w s (src + j)).isSome) ∧
        (r = .ok () → ∃ n < max, EndsAt w s src n ∧ Received w s src dst k' (n + 1)) ∧
        ∀ x, x < dst ∨ dst + max ≤ x → k' x = k x)) := by
  have hinv := h.reachable_inv hr
  have hend : userSpaceEnd = 0x0000800000000000 := rfl
  constructor
  · intro start len write hstart hlen
    obtain ⟨free, hled⟩ := hinv.ledger
    rw [hled.pagingIsUserRange_iff hs hstart hlen write]
    refine or_congr Iff.rfl ⟨?_, ?_⟩
    · rintro ⟨hle, hall⟩
      refine ⟨by omega, hle, fun v hv hlt hgt => ?_⟩
      have hpage : UserPage v := ⟨by omega, hv⟩
      rw [maps_user_eq hs hpage]
      exact hall v hpage hlt hgt
    · rintro ⟨_, hle, hall⟩
      refine ⟨hle, fun v hv hlt hgt => ?_⟩
      rw [← maps_user_eq hs hv]
      exact hall v hv.2 hlt hgt
  · intro dst src max k hdst hsrc hmax
    by_cases hnull : src = 0
    · have hrun : ∃ e, copyStringFromUser w.memory.mem (some s) dst src max k = (.error e, k) := by
        unfold copyStringFromUser
        split
        · exact ⟨_, rfl⟩
        · exact ⟨_, rfl⟩
      obtain ⟨e, hrun⟩ := hrun
      refine Eff.post_of_eq hrun ⟨iff_of_false nofun ?_, nofun, fun _ _ => rfl⟩
      exact fun hcon => hcon.1 hnull
    · refine Eff.post_mono (copyStringFromUser_copied hinv hs hdst hsrc hmax hnull k) ?_
      intro r k' hcopied
      refine ⟨hcopied.ok_iff.trans ⟨?_, ?_⟩, fun hok => ?_, hcopied.inside⟩
      · rintro ⟨n, hn, hends⟩
        refine ⟨hnull, n, hn, hends.zero, fun j hj => ?_⟩
        obtain ⟨b, hb, _⟩ := hends.before j hj
        rw [hb]
        rfl
      · rintro ⟨_, n, hn, hzero, hread⟩
        obtain ⟨n', hle, hends⟩ := exists_endsAt hzero hread
        exact ⟨n', by omega, hends⟩
      · obtain ⟨n, hn, hends⟩ := hcopied.ok_iff.mp hok
        exact ⟨n, hn, hends, hcopied.string n hok hends⟩

/-- The small machine after it has mapped its page. -/
def smallMapped : World :=
  (smallReady.call smallMap).2

theorem user_pointer_checks_small :
    pagingIsUserRange smallMapped.memory.mem 0x1000 0x400FFC 4 true = true ∧
      ∀ k, (copyStringFromUser smallMapped.memory.mem (some 0x1000) 0x900000 0x400000 8 k).1 =
        .ok () := by
  have hreach : World.Reachable smallWorld smallMapped :=
    ((Relation.ReflTransGen.refl.tail ⟨.create, trivial, rfl⟩).tail ⟨.alloc, trivial, rfl⟩).tail
      ⟨smallMap, ⟨by decide, by decide⟩, rfl⟩
  have hspace : 0x1000 ∈ smallMapped.spaces := by decide +kernel
  obtain ⟨hrange, hstring⟩ := user_pointer_checks_exact booted_smallWorld hreach hspace
  constructor
  · refine (hrange 0x400FFC 4 true (by decide) (by decide)).mpr (Or.inr ⟨by decide, by decide, ?_⟩)
    intro v hv hlt hgt
    have hpage : v = 0x400000 := by
      simp only [pageSize] at hv hgt
      omega
    rw [hpage]
    decide +kernel
  · intro k
    refine (hstring 0x900000 0x400000 8 k (by decide) (by decide) (by decide)).1.mpr ?_
    exact ⟨by decide, 0, by decide, by decide +kernel, fun j hj => by omega⟩

end Syscall
end Nyxis
