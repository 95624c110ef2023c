import Nyxis.Mm.Contents
import Mathlib.Data.Finset.Card

/-!
# What the mapping calls do to the count of free frames

The allocator counts its free frames in {lit}`g_free_count`.  This module follows the
counter and the free list through the calls that map and unmap a page.  A mapping call
takes one frame for each table it creates, and a call that fails does not give these
back.

Main results:

- Definition {lit}`Follows`: the counter has changed by as much as the free list.
- Theorem {lit}`Ledger.walkToTable_takes`: descending to a page table takes a frame
  exactly if a table is missing and a frame is free.
- Theorem {lit}`Ledger.unmapFree_gives`: releasing a mapped page gives one frame back.
-/

namespace Nyxis
namespace Mm

/-- Between two states the counter of free frames has changed by as much as the length
of the free list. -/
def Follows (m : Memory) (free : List Nat) (m' : Memory) (free' : List Nat) : Prop :=
  m'.freeCount + UInt64.ofNat free.length = m.freeCount + UInt64.ofNat free'.length

theorem Follows.refl (m : Memory) (free : List Nat) : Follows m free m free :=
  rfl

theorem Follows.trans {m m' m'' : Memory} {free free' free'' : List Nat}
    (h : Follows m free m' free') (h' : Follows m' free' m'' free'') :
    Follows m free m'' free'' := by
  unfold Follows at *
  grind

/-- Taking the first free frame. -/
theorem follows_pop (m : Memory) (f : Nat) (fs : List Nat) :
    Follows m (f :: fs) (popFree m) fs := by
  change m.freeCount - 1 + UInt64.ofNat (fs.length + 1) = m.freeCount + UInt64.ofNat fs.length
  rw [UInt64.ofNat_add, show UInt64.ofNat 1 = 1 from rfl]
  grind

/-- Giving a frame back. -/
theorem follows_push (m : Memory) (f : Nat) (fs : List Nat) :
    Follows m fs (pushFree m f) (f :: fs) := by
  change m.freeCount + 1 + UInt64.ofNat fs.length = m.freeCount + UInt64.ofNat (fs.length + 1)
  rw [UInt64.ofNat_add, show UInt64.ofNat 1 = 1 from rfl]
  grind

theorem follows_of_count {m m' : Memory} (h : m'.freeCount = m.freeCount) (free : List Nat) :
    Follows m free m' free := by
  unfold Follows
  rw [h]

/-- Where the counter follows the list, it is the same if the list is as long. -/
theorem Follows.count_eq_iff {m m' : Memory} {free free' : List Nat}
    (h : Follows m free m' free') (hlt : free.length < 2 ^ 64) (hlt' : free'.length < 2 ^ 64) :
    m'.freeCount = m.freeCount ↔ free'.length = free.length := by
  unfold Follows at h
  constructor
  · intro heq
    rw [heq] at h
    have hcast := congrArg UInt64.toNat (add_left_cancel h)
    rw [UInt64.toNat_ofNat_of_lt' hlt, UInt64.toNat_ofNat_of_lt' hlt'] at hcast
    exact hcast.symm
  · intro heq
    rw [heq] at h
    exact add_right_cancel h

variable {m : Memory} {a : Account} {free : List Nat}

/-- The free list is much shorter than the counter can count. -/
theorem Ledger.length_lt (h : Ledger m a free) : free.length < 2 ^ 64 := by
  have hsub : free.toFinset ⊆ Finset.range (2 ^ 52) := by
    intro f hf
    rw [List.mem_toFinset] at hf
    exact Finset.mem_range.mpr (h.frame f (h.free_boot f hf)).lt
  have hcard := Finset.card_le_card hsub
  rw [List.toFinset_card_of_nodup h.allocator.nodup, Finset.card_range] at hcard
  omega

/-- A state has one free list. -/
theorem Ledger.free_unique {free' : List Nat} {a' : Account} (h : Ledger m a free)
    (h' : Ledger m a' free') : free' = free :=
  h'.allocator.list.unique h.allocator.list

/-! ## Descending -/

/-- Frames have been taken off the free list only, and where none has been taken,
nothing has changed. -/
structure TakesOnly (m m' : Memory) (a : Account) (free free' : List Nat) : Prop where
  ledger : Ledger m' a free'
  follows : Follows m free m' free'
  le : free'.length ≤ free.length
  same : free'.length = free.length → m' = m

theorem TakesOnly.refl (h : Ledger m a free) : TakesOnly m m a free free :=
  ⟨h, Follows.refl m free, Nat.le_refl _, fun _ => rfl⟩

theorem TakesOnly.trans {m' m'' : Memory} {free' free'' : List Nat}
    (h : TakesOnly m m' a free free') (h' : TakesOnly m' m'' a free' free'') :
    TakesOnly m m'' a free free'' where
  ledger := h'.ledger
  follows := h.follows.trans h'.follows
  le := Nat.le_trans h'.le h.le
  same heq := by
    have h1 := h.le
    have h2 := h'.le
    rw [h'.same (by omega), h.same (by omega)]

/-- Following one entry takes a frame exactly if the entry is absent and a frame is
free. -/
theorem Ledger.nextLevelDyn_takes (h : Ledger m a free) {s : Nat} (hs : s ∈ a.spaces)
    {q : List Nat} {i t : Nat} (hq : UserPos (q ++ [i])) (hlen : q.length < 3)
    (ht : tableAt m.mem s q = some t) :
    Eff.Post (nextLevelDyn t i true) m (fun r m' => ∃ free', TakesOnly m m' a free free' ∧
      (free'.length = free.length → (tableAt m.mem s (q ++ [i])).isSome ∨ free = []) ∧
      (r = .ok none → free = [])) := by
  cases hpresent : isPresent (m.mem t i) with
  | true =>
      have hsome : tableAt m.mem s (q ++ [i]) = some (tableOf (m.mem t i)) :=
        tableAt_snoc_of_present ht hpresent
      refine Eff.post_of_eq (h.nextLevelDyn_present hs hq hlen ht hpresent true)
        ⟨free, TakesOnly.refl h, fun _ => Or.inl ?_, fun hr => ?_⟩
      · rw [hsome]
        rfl
      · rw [hsome] at hr
        cases hr
  | false =>
      cases free with
      | nil =>
          have hrun : nextLevelDyn t i true m = (.ok none, m) := by
            simp [nextLevelDyn, hpresent, Eff.bind_ok (allocTableDyn_nil h.allocator)]
          exact Eff.post_of_eq hrun ⟨[], TakesOnly.refl h, fun _ => Or.inr rfl, fun _ => rfl⟩
      | cons f fs =>
          have hrun : nextLevelDyn t i true m =
              (.ok (some f), (popFree m).store t i (tableEntry f)) := by
            simp [nextLevelDyn, hpresent, Eff.bind_ok (allocTableDyn_cons h.allocator), tableEntry]
          have hpost := h.nextLevelDyn_create hs hq hlen ht
          unfold Eff.Post at hpost
          rw [hrun] at hpost
          obtain ⟨free', hled⟩ := hpost.1.ledger
          -- storing an entry does not touch the free list
          have hnot : t ∉ fs := fun hmem => h.not_tableAt (Or.inl (List.mem_cons_of_mem f hmem)) hs
            (UserPos.of_snoc q i hq) ht
          have hfree : free' = fs :=
            hled.allocator.list.unique (h.allocator.pop.store hnot i (tableEntry f)).list
          rw [hfree] at hled
          refine Eff.post_of_eq hrun ⟨fs, ⟨hled, ?_, ?_, ?_⟩, ?_, fun hr => ?_⟩
          · exact (follows_pop m f fs).trans (follows_of_count rfl fs)
          · simp
          · simp
          · simp
          · cases hr

/-- A descent to a page table that is there takes no frame. -/
theorem Ledger.walkToTable_present (h : Ledger m a free) {s : Nat} (hs : s ∈ a.spaces) {v : Nat}
    (hv : v < userSpaceEnd) (missing : Nstatus) {pt : Nat}
    (ht : tableAt m.mem s (ptPos v) = some pt) :
    walkToTable s v true missing m = (.ok pt, m) := by
  obtain ⟨hp3, hp2, hp1, _⟩ := userPos_levels hv
  have habove : ∀ {q : List Nat} (r : List Nat), q ++ r = ptPos v →
      ∃ t, tableAt m.mem s q = some t := by
    intro q r hqr
    cases hq : tableAt m.mem s q with
    | none =>
        have hnone : tableAt m.mem s (q ++ r) = none := TableTree.tableAt_append_eq_none r hq
        rw [← hqr, hnone] at ht
        cases ht
    | some t => exact ⟨t, rfl⟩
  obtain ⟨pdpt, h1⟩ := habove (q := [] ++ [tableIndex 3 v]) [tableIndex 2 v, tableIndex 1 v] rfl
  obtain ⟨pd, h2⟩ := habove (q := [tableIndex 3 v] ++ [tableIndex 2 v]) [tableIndex 1 v] rfl
  have hlevel : ∀ {q : List Nat} {i t u : Nat}, UserPos (q ++ [i]) → q.length < 3 →
      tableAt m.mem s q = some t → tableAt m.mem s (q ++ [i]) = some u →
      nextLevelDyn t i true m = (.ok (some u), m) := by
    intro q i t u hq hlen hqt hu
    cases hpresent : isPresent (m.mem t i) with
    | false =>
        rw [tableAt_snoc_of_absent hqt hpresent] at hu
        cases hu
    | true => rw [h.nextLevelDyn_present hs hq hlen hqt hpresent, hu]
  unfold walkToTable
  rw [Eff.bind_ok (hlevel hp3 (by decide) rfl h1)]
  dsimp only
  rw [Eff.bind_ok (hlevel hp2 (by simp) h1 h2)]
  dsimp only
  rw [Eff.bind_ok (hlevel hp1 (by simp) h2 ht)]
  rfl

/-- A descent with creation takes a frame if the page table is missing and a frame is
free. -/
theorem Ledger.walkToTable_takes (h : Ledger m a free) {s : Nat} (hs : s ∈ a.spaces)
    {v : Nat} (hv : v < userSpaceEnd) (missing : Nstatus) :
    Eff.Post (walkToTable s v true missing) m (fun _ m' => ∃ free',
      TakesOnly m m' a free free' ∧
      (free'.length = free.length → (tableAt m.mem s (ptPos v)).isSome ∨ free = [])) := by
  obtain ⟨hp3, hp2, hp1, _⟩ := userPos_levels hv
  have hlevel : ∀ {n : Memory} {fs : List Nat} {q : List Nat} {i t : Nat}, Ledger n a fs →
      UserPos (q ++ [i]) → q.length < 3 → tableAt n.mem s q = some t →
      Eff.Post (nextLevelDyn t i true) n (fun r n' => (Grown n n' a ∧ ∃ u, r = .ok u ∧
        ∀ x, u = some x → tableAt n'.mem s (q ++ [i]) = some x) ∧
        ∃ fs', TakesOnly n n' a fs fs' ∧
          (fs'.length = fs.length → (tableAt n.mem s (q ++ [i])).isSome ∨ fs = []) ∧
          (r = .ok none → fs = [])) :=
    fun hn hq hlen ht => Eff.post_and (hn.nextLevelDyn_create hs hq hlen ht)
      (hn.nextLevelDyn_takes hs hq hlen ht)
  have hempty : ∀ {n : Memory} {fs : List Nat}, TakesOnly m n a free fs → fs = [] →
      fs.length = free.length → (tableAt m.mem s (ptPos v)).isSome ∨ free = [] := by
    intro n fs _ hnil heq
    rw [hnil] at heq
    exact Or.inr (List.length_eq_zero_iff.mp heq.symm)
  unfold walkToTable
  refine Eff.post_bind (hlevel h hp3 (by decide) rfl) ?_ ?_
  · rintro e m' ⟨⟨_, u, hu, _⟩, _⟩
    cases hu
  rintro u m1 ⟨⟨_, _, ⟨⟩, ht1⟩, free1, hk1, _, hnone1⟩
  cases u with
  | none =>
      obtain rfl := hnone1 rfl
      exact Eff.post_of_eq rfl ⟨free1, hk1, fun _ => Or.inr rfl⟩
  | some pdpt =>
      refine Eff.post_bind (hlevel hk1.ledger hp2 (by simp) (ht1 pdpt rfl)) ?_ ?_
      · rintro e m' ⟨⟨_, u, hu, _⟩, _⟩
        cases hu
      rintro u m2 ⟨⟨_, _, ⟨⟩, ht2⟩, free2, hk2, _, hnone2⟩
      have hk12 := hk1.trans hk2
      cases u with
      | none =>
          refine Eff.post_of_eq rfl ⟨free2, hk12, fun heq => ?_⟩
          have hle1 := hk1.le
          have hle2 := hk2.le
          exact Or.inr (List.length_eq_zero_iff.mp (by
            rw [hnone2 rfl] at hle1 hle2
            rw [← heq]
            exact Nat.le_zero.mp hle2))
      | some pd =>
          refine Eff.post_bind (hlevel hk12.ledger hp1 (by simp) (ht2 pd rfl)) ?_ ?_
          · rintro e m' ⟨⟨_, u, hu, _⟩, _⟩
            cases hu
          rintro u m3 ⟨_, free3, hk3, hiff3, _⟩
          have hk := hk12.trans hk3
          have hall : free3.length = free.length →
              (tableAt m.mem s (ptPos v)).isSome ∨ free = [] := by
            intro heq
            have hle1 := hk12.le
            have hle2 := hk3.le
            have hlen2 : free2.length = free.length := by omega
            have hm2 : m2 = m := hk12.same hlen2
            rcases hiff3 (by omega) with hsome | hnil
            · rw [hm2] at hsome
              exact Or.inl hsome
            · exact hempty hk12 hnil hlen2
          cases u with
          | none => exact Eff.post_of_eq rfl ⟨free3, hk, hall⟩
          | some pt => exact Eff.post_of_eq rfl ⟨free3, hk, hall⟩

/-! ## Mapping -/

/-- With good arguments a mapping call descends to the page table. -/
theorem Ledger.pagingMapPage_run (h : Ledger m a free) {s p : Nat} (hs : s ∈ a.spaces)
    (hp : p ∈ a.held) {v flags : Nat} (hargs : MapArgs m.nxSupported v flags) :
    pagingMapPage s p v flags m = (do
      let pt ← walkToTable s v true .NoutOfMemory
      let entry ← Eff.gets (fun m => m.mem pt (tableIndex 0 v))
      if hasFlag entry pagePresent then
        Eff.fail .NalreadyExists
      else
        Eff.modify (fun m' => m'.store pt (tableIndex 0 v)
          (leafEntry p (effectiveFlags m.nxSupported flags))) : MemM Unit) m := by
  have hframe : Frame p := h.frame p (h.held_boot p hp)
  have hs0 : s ≠ 0 := (h.frame s (h.space_owned hs).1).ne_zero
  have hshift : p >>> 52 = 0 := by
    rw [Nat.shiftRight_eq_div_pow]
    exact Nat.div_eq_of_lt hframe.lt
  have huser : ¬ (v = 0 ∨ isCanonical v = false ∨ userSpaceEnd ≤ v) := by
    rw [isCanonical_of_user hargs.user, not_or, not_or, not_le]
    exact ⟨hargs.ne_zero, by decide, hargs.user⟩
  have hwx : ¬ (m.nxSupported = true ∧ hasFlag (effectiveFlags m.nxSupported flags) pageRw = true ∧
      ¬ hasFlag (effectiveFlags m.nxSupported flags) pageNx = true) := by
    rintro ⟨hnx, hrw, hnot⟩
    exact hnot (hargs.writeXorExecute hnx hrw)
  unfold pagingMapPage
  rw [if_neg hs0, if_neg (by simp [hframe.aligned, hargs.aligned]), if_neg huser,
    if_neg (by simp [hshift]), Eff.gets_bind_run]
  exact congrFun (if_neg hwx) m

/-- A mapping call takes frames for tables only: at least one if the page table is missing
and a frame is free, and it succeeds without one only if the page table is there. -/
theorem Ledger.pagingMapPage_takes (h : Ledger m a free) {s p : Nat} (hs : s ∈ a.spaces)
    (hp : p ∈ a.held) {v flags : Nat} (hargs : MapArgs m.nxSupported v flags) :
    Eff.Post (pagingMapPage s p v flags) m (fun r m' =>
      ∃ a' free', Ledger m' a' free' ∧ Follows m free m' free' ∧ free'.length ≤ free.length ∧
        (free'.length = free.length → (tableAt m.mem s (ptPos v)).isSome ∨ free = []) ∧
        (r = .ok () → free'.length = free.length → (tableAt m.mem s (ptPos v)).isSome)) := by
  have huser := hargs.user
  refine Eff.post_congr (h.pagingMapPage_run hs hp hargs) ?_
  refine Eff.post_bind (Eff.post_and (h.walkToTable_create hs huser .NoutOfMemory)
    (h.walkToTable_takes hs huser .NoutOfMemory)) ?_ ?_
  · rintro e m' ⟨_, free', hk, hiff⟩
    exact ⟨a, free', hk.ledger, hk.follows, hk.le, hiff, nofun⟩
  rintro pt m' ⟨⟨hg, hr | ⟨_, ⟨⟩, htab⟩⟩, free', hk, hiff⟩
  · cases hr
  refine Eff.post_gets_bind ?_
  split
  · exact Eff.post_of_eq rfl ⟨a, free', hk.ledger, hk.follows, hk.le, hiff, nofun⟩
  next habsent =>
  rw [Bool.not_eq_true] at habsent
  have hgood : GoodEntry m'.nxSupported ((ptPos v).length + 1) p
      (leafEntry p (effectiveFlags m.nxSupported flags)) := by
    refine Or.inr ⟨rfl, _, rfl, ?_⟩
    rw [hg.steady.nx]
    exact hargs.writeXorExecute
  obtain ⟨hled, _, _⟩ := hk.ledger.install hs (userPos_levels huser).2.2.2 htab habsent hp hgood
    (fun hlt => absurd hlt (by simp))
  refine Eff.post_of_eq rfl ⟨_, free', hled, hk.follows.trans (follows_of_count rfl free'), hk.le,
    hiff, fun _ heq => ?_⟩
  rw [hk.same heq] at htab
  rw [htab]
  rfl

/-- Mapping a page that is unbound and has its page table succeeds, and takes no frame. -/
theorem Ledger.pagingMapPage_present (h : Ledger m a free) {s p : Nat} (hs : s ∈ a.spaces)
    (hp : p ∈ a.held) {v flags pt : Nat} (hargs : MapArgs m.nxSupported v flags)
    (ht : tableAt m.mem s (ptPos v) = some pt) (hun : entryAt m.mem s (leafPos v) = none) :
    ∃ m', pagingMapPage s p v flags m = (.ok (), m') ∧
      Ledger m' { a with held := a.held.erase p } free ∧ Follows m free m' free ∧
      ∀ q, UserPos q → q.length < 4 → tableAt m'.mem s q = tableAt m.mem s q := by
  have huser := hargs.user
  have habsent : isPresent (m.mem pt (tableIndex 0 v)) = false := by
    have hentry := entryAt_of_table ht (tableIndex 0 v)
    change entryAt m.mem s (leafPos v) = _ at hentry
    rw [hun] at hentry
    cases hpresent : isPresent (m.mem pt (tableIndex 0 v)) with
    | false => rfl
    | true =>
        rw [hpresent] at hentry
        cases hentry
  obtain ⟨hled, hupd, _⟩ := h.install hs (userPos_levels huser).2.2.2 ht habsent hp
    (e := leafEntry p (effectiveFlags m.nxSupported flags))
    (Or.inr ⟨rfl, _, rfl, hargs.writeXorExecute⟩) (fun hlt => absurd hlt (by simp))
  refine ⟨_, ?_, hled, follows_of_count rfl free, ?_⟩
  · rw [h.pagingMapPage_run hs hp hargs, Eff.bind_ok (h.walkToTable_present hs huser _ ht),
      Eff.gets_bind_run, if_neg (by simp [habsent])]
    rfl
  · intro q hq hlen
    rw [hupd.tableAt (by simp) hs hq, if_neg]
    rintro ⟨_, rfl⟩
    rw [List.length_append] at hlen
    simp at hlen

/-! ## Unmapping -/

/-- Releasing a mapped page gives one frame back. -/
theorem Ledger.unmapFree_gives (h : Ledger m a free) {s v e : Nat} (hs : s ∈ a.spaces)
    (hv : v < userSpaceEnd) (hv0 : v ≠ 0) (halign : v % pageSize = 0)
    (he : entryAt m.mem s (leafPos v) = some e) :
    Eff.Post (pagingUnmapFreePage s v) m (fun _ m' => ∃ free', Ledger m' a free' ∧
      Follows m free m' free' ∧ free'.length = free.length + 1) := by
  unfold pagingUnmapFreePage
  have hcount : Eff.Post (clearLeaf s v) m (fun _ m' => m'.freeCount = m.freeCount) := by
    have hwalk := h.walkToTable_find hs hv .NinvalidArg
    unfold clearLeaf
    split
    · exact Eff.post_of_eq rfl rfl
    split
    · exact Eff.post_of_eq rfl rfl
    cases htab : tableAt m.mem s (ptPos v) with
    | none =>
        rw [htab] at hwalk
        exact Eff.post_of_eq (Eff.bind_error hwalk) rfl
    | some pt =>
        rw [htab] at hwalk
        refine Eff.post_bind_ok hwalk (Eff.post_gets_bind ?_)
        split
        · exact Eff.post_of_eq rfl rfl
        · exact Eff.post_of_eq rfl rfl
  refine Eff.post_bind (Eff.post_and (h.clearLeaf_post hs v) hcount) ?_ ?_
  · rintro e' m' ⟨⟨_, hcon, _⟩ | ⟨_, _, _, hun⟩, _⟩
    · cases hcon
    · rw [hun hv0 halign hv] at he
      cases he
  · rintro e' m' ⟨⟨_, ⟨⟩, hun, hheld, hled⟩ | ⟨_, hcon, _⟩, hc⟩
    swap
    · cases hcon
    have hmem : tableOf e' ∈ insert (tableOf e') a.held := Finset.mem_insert_self _ _
    have hframe : Frame (tableOf e') := hled.frame _ (hled.held_boot _ hmem)
    obtain ⟨hled', _, _⟩ := hled.release hmem
    rw [Finset.erase_insert hheld] at hled'
    exact Eff.post_of_eq (pfaFree_push hframe.ne_zero hframe.aligned)
      ⟨_, hled', (follows_of_count hc free).trans (follows_push m' _ free), by simp⟩

end Mm
end Nyxis
