import Nyxis.Mm.Translation
import Mathlib.Tactic.Ring

/-!
# The check of user pointers

{lit}`paging_is_user_range` of {lit}`kernel/paging/paging.c` decides whether a system call
may touch a range of user memory.  It walks the tables for every page of the range and
tests the flags of each entry on the way.

Main results:

- Theorem {lit}`Ledger.userPageOk_iff`: the walk accepts a page exactly if it is mapped with
  the flags the access needs.
- Theorem {lit}`Ledger.pagingIsUserRange_iff`: the check accepts exactly the empty range and
  the ranges of the user half whose pages are all mapped so.
-/

namespace Nyxis
namespace Mm

/-- The tests of {lit}`user_page_ok` on one entry. -/
def userEntryOk (write : Bool) (entry : Nat) : Bool :=
  hasFlag entry pagePresent && hasFlag entry pageUser && (!write || hasFlag entry pageRw)

/-- {lit}`user_page_ok` from a table of the given level on: every entry on the way to the
page has the flags. -/
def userPageOk (mem : Nat → Nat → Nat) (write : Bool) : (level table v : Nat) → Bool
  | 0, table, v => userEntryOk write (mem table (tableIndex 0 v))
  | level + 1, table, v =>
      let entry := mem table (tableIndex (level + 1) v)
      userEntryOk write entry && userPageOk mem write level (tableOf entry) v

/-- The loop of {lit}`paging_is_user_range`. -/
def userRangeLoop (mem : Nat → Nat → Nat) (pml4 finish : Nat) (write : Bool) :
    (fuel page : Nat) → Bool
  | 0, _ => false
  | fuel + 1, page =>
      if page < finish then
        userPageOk mem write 3 pml4 page &&
          userRangeLoop mem pml4 finish write fuel ((page + pageSize) % 2 ^ 64)
      else
        true

/-- {lit}`paging_is_user_range`: the range may be accessed by the user. -/
def pagingIsUserRange (mem : Nat → Nat → Nat) (pml4 start len : Nat) (write : Bool) : Bool :=
  if pml4 = 0 then false
  else if len = 0 then true
  else
    let finish := (start + len) % 2 ^ 64
    if finish < start then false
    else if userSpaceEnd < finish then false
    else userRangeLoop mem pml4 finish write (len / pageSize + 3) (start / pageSize * pageSize)

/-! ## One page -/

/-- A page is mapped for the user, and writable if the access is a write. -/
def UserAccess (write : Bool) : Option (Nat × Nat) → Prop
  | none => False
  | some (_, flags) => hasFlag flags pageUser = true ∧ (write = true → hasFlag flags pageRw = true)

instance (write : Bool) (b : Option (Nat × Nat)) : Decidable (UserAccess write b) :=
  match b with
  | none => inferInstanceAs (Decidable False)
  | some (_, flags) => inferInstanceAs (Decidable (hasFlag flags pageUser = true ∧
      (write = true → hasFlag flags pageRw = true)))

@[simp]
theorem hasFlag_tableEntry_rw (p : Nat) : hasFlag (tableEntry p) pageRw = true := by
  rw [hasFlag_rw, tableEntry_eq, Nat.testBit_or]
  simp [show Nat.testBit 7 1 = true from rfl]

variable {m : Memory} {a : Account} {free : List Nat}

/-- Above the leaves the tests pass as soon as the entry is present. -/
theorem Ledger.userEntryOk_table (h : Ledger m a free) {s : Nat} (hs : s ∈ a.spaces)
    {q : List Nat} {i t : Nat} (hq : UserPos (q ++ [i])) (hlen : q.length < 3)
    (ht : tableAt m.mem s q = some t) (write : Bool) :
    userEntryOk write (m.mem t i) = isPresent (m.mem t i) := by
  cases hpresent : isPresent (m.mem t i) with
  | false => simp [userEntryOk, hpresent]
  | true =>
      have hentry : entryAt m.mem s (q ++ [i]) = some (m.mem t i) := by
        rw [entryAt_of_table ht, hpresent]
        rfl
      obtain ⟨g, _, heq⟩ := h.tables s hs _ hq (by simp; omega) _ hentry
      rw [heq]
      simp [userEntryOk]

/-- The walk of {lit}`user_page_ok` tests the leaf of the page. -/
theorem Ledger.userPageOk_eq (h : Ledger m a free) {s : Nat} (hs : s ∈ a.spaces) {v : Nat}
    (hv : v < userSpaceEnd) (write : Bool) :
    userPageOk m.mem write 3 s v = (entryAt m.mem s (leafPos v)).any (userEntryOk write) := by
  obtain ⟨hp3, hp2, hp1, _⟩ := userPos_levels hv
  have hnone : ∀ {q : List Nat} {i t : Nat}, tableAt m.mem s q = some t →
      isPresent (m.mem t i) = false → q ++ [i] <+: leafPos v →
      entryAt m.mem s (leafPos v) = none := by
    intro q i t ht hp hpre
    refine TableTree.entryAt_below_absent _ ?_ (by simp) hpre
    have hentry := entryAt_of_table ht i
    rw [hp] at hentry
    exact hentry
  have ht0 : tableAt m.mem s [] = some s := rfl
  rw [userPageOk, h.userEntryOk_table hs hp3 (by decide) ht0]
  cases htop : isPresent (m.mem s (tableIndex 3 v)) with
  | false =>
      rw [hnone ht0 htop ⟨_, rfl⟩]
      rfl
  | true =>
      have ht1 := tableAt_snoc_of_present ht0 htop
      rw [Bool.true_and, userPageOk, h.userEntryOk_table hs hp2 (by simp) ht1]
      cases hmid : isPresent (m.mem (tableOf (m.mem s (tableIndex 3 v))) (tableIndex 2 v)) with
      | false =>
          rw [hnone ht1 hmid ⟨_, rfl⟩]
          rfl
      | true =>
          have ht2 := tableAt_snoc_of_present ht1 hmid
          rw [Bool.true_and, userPageOk, h.userEntryOk_table hs hp1 (by simp) ht2]
          cases hlow : isPresent (m.mem (tableOf (m.mem (tableOf (m.mem s (tableIndex 3 v)))
              (tableIndex 2 v))) (tableIndex 1 v)) with
          | false =>
              rw [hnone ht2 hlow ⟨_, rfl⟩]
              rfl
          | true =>
              have ht3 := tableAt_snoc_of_present ht2 hlow
              have hleaf : leafPos v = [] ++ [tableIndex 3 v] ++ [tableIndex 2 v] ++
                [tableIndex 1 v] ++ [tableIndex 0 v] := rfl
              rw [Bool.true_and, userPageOk, hleaf, entryAt_of_table ht3]
              split
              · rfl
              next habsent => simp [userEntryOk, habsent]

/-- The walk accepts a page exactly if it is mapped with the flags the access needs. -/
theorem Ledger.userPageOk_iff (h : Ledger m a free) {s : Nat} (hs : s ∈ a.spaces) {v : Nat}
    (hv : v < userSpaceEnd) (write : Bool) :
    userPageOk m.mem write 3 s v = true ↔ UserAccess write (translate m.mem s v) := by
  rw [h.userPageOk_eq hs hv, h.translate_user hs hv]
  cases he : entryAt m.mem s (leafPos v) with
  | none => simp [UserAccess]
  | some e =>
      obtain ⟨g, flags, _, heq, _⟩ := h.leaves s hs _ (userPos_leafPos hv) rfl e he
      have hpresent : hasFlag e pagePresent = true := by
        rw [heq]
        exact hasFlag_leafEntry_present g flags
      simp only [Option.any_some, userEntryOk, hpresent, Option.map_some, UserAccess,
        hasFlag_flagsOf_user, hasFlag_flagsOf_rw]
      cases write <;> simp

/-! ## A range -/

/-- The loop accepts exactly if it accepts every page from its start to the end of the
range. -/
theorem userRangeLoop_iff {mem : Nat → Nat → Nat} {pml4 finish : Nat} {write : Bool}
    (hfinish : finish ≤ userSpaceEnd) (fuel : Nat) {page : Nat} (halign : page % pageSize = 0)
    (hfuel : finish ≤ page + fuel * pageSize) :
    userRangeLoop mem pml4 finish write (fuel + 1) page = true ↔
      ∀ v, v % pageSize = 0 → page ≤ v → v < finish → userPageOk mem write 3 pml4 v = true := by
  have hend : userSpaceEnd = 0x0000800000000000 := rfl
  have hsize : pageSize = 4096 := rfl
  induction fuel generalizing page with
  | zero =>
      rw [userRangeLoop, if_neg (by omega)]
      refine iff_of_true rfl (fun v _ hle hlt => by omega)
  | succ fuel ih =>
      rw [userRangeLoop]
      split
      next hlt =>
        have hwrap : (page + pageSize) % 2 ^ 64 = page + pageSize := Nat.mod_eq_of_lt (by omega)
        have halign' : (page + pageSize) % pageSize = 0 := by
          rw [Nat.add_mod_right]
          exact halign
        have hmul : (fuel + 1) * pageSize = pageSize + fuel * pageSize := by ring
        have hfuel' : finish ≤ page + pageSize + fuel * pageSize := by omega
        have hrest := ih halign' hfuel'
        rw [hwrap, Bool.and_eq_true]
        constructor
        · rintro ⟨hfirst, hloop⟩ v hv hle hltv
          by_cases heq : v = page
          · rw [heq]
            exact hfirst
          · refine hrest.mp hloop v hv ?_ hltv
            rw [hsize] at *
            omega
        · intro hall
          refine ⟨hall page halign (Nat.le_refl _) hlt, hrest.mpr (fun v hv hle hltv => ?_)⟩
          exact hall v hv (by omega) hltv
      next hge => exact iff_of_true rfl (fun v _ hle hlt => by omega)

/-- The check accepts exactly the empty range and the ranges of the user half whose pages
are all mapped with the flags the access needs. -/
theorem Ledger.pagingIsUserRange_iff (h : Ledger m a free) {s : Nat} (hs : s ∈ a.spaces)
    {start len : Nat} (hstart : start < 2 ^ 64) (hlen : len < 2 ^ 64) (write : Bool) :
    pagingIsUserRange m.mem s start len write = true ↔
      len = 0 ∨ (start + len ≤ userSpaceEnd ∧ ∀ v, UserPage v → v < start + len →
        start < v + pageSize → UserAccess write (translate m.mem s v)) := by
  have hend : userSpaceEnd = 0x0000800000000000 := rfl
  have hsize : pageSize = 4096 := rfl
  have hs0 : s ≠ 0 := (h.frame s (h.space_owned hs).1).ne_zero
  unfold pagingIsUserRange
  rw [if_neg hs0]
  split
  next hzero => exact iff_of_true rfl (Or.inl hzero)
  next hpos =>
  rw [or_iff_right hpos]
  dsimp only
  split
  next hwrap => exact iff_of_false (by decide) (fun hcon => by omega)
  next hwrap =>
  have hsum : (start + len) % 2 ^ 64 = start + len := Nat.mod_eq_of_lt (by omega)
  rw [hsum]
  split
  next hover => exact iff_of_false (by decide) (fun hcon => by omega)
  next hunder =>
  have hdiv := Nat.div_mul_le_self start pageSize
  have hfirst : start / pageSize * pageSize % pageSize = 0 := Nat.mul_mod_left _ _
  rw [userRangeLoop_iff (by omega) _ hfirst (by rw [hsize]; omega),
    and_iff_right (by omega)]
  constructor
  · intro hall v hv hlt hgt
    have hle : start / pageSize * pageSize ≤ v := by
      have hv' := hv.2
      rw [hsize] at *
      omega
    exact (h.userPageOk_iff hs hv.1 write).mp (hall v hv.2 hle hlt)
  · intro hall v hv hle hlt
    refine (h.userPageOk_iff hs (by omega) write).mpr (hall v ⟨by omega, hv⟩ hlt ?_)
    rw [hsize] at *
    omega

end Mm
end Nyxis
