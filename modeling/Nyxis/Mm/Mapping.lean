import Nyxis.Mm.Ledger
import Mathlib.Tactic.IntervalCases

/-!
# What the mapping calls do to the ledger

Each mapping call either binds or unbinds one leaf, or leaves every leaf of every
address space alone.  Tables created on the way to a leaf stay: they are frames of
the address space even when the call fails later.

Main results:

- Theorem {lit}`pagingMapPage_post`: mapping a held frame.
- Theorems {lit}`pagingUnmapPage_post` and {lit}`pagingUnmapFreePage_post`:
  unmapping a page.
- Theorem {lit}`pagingAddrspaceCreate_post`: opening an address space.
-/

namespace Nyxis
namespace Mm

/-- The position of the leaf of a virtual page. -/
def leafPos (v : Nat) : List Nat :=
  [tableIndex 3 v, tableIndex 2 v, tableIndex 1 v, tableIndex 0 v]

theorem userPos_leafPos {v : Nat} (hv : v < userSpaceEnd) : UserPos (leafPos v) where
  length_le := by simp [leafPos]
  lt i hi := by
    simp only [leafPos, List.mem_cons, List.not_mem_nil, or_false] at hi
    rcases hi with rfl | rfl | rfl | rfl <;> exact tableIndex_lt _ v
  top i hi := by
    simp only [leafPos, List.head?_cons, Option.mem_some_iff] at hi
    subst hi
    exact tableIndex_top_lt hv

/-- User pages with the same leaf position are the same page. -/
theorem leafPos_inj {v w : Nat} (hv : v < userSpaceEnd) (hw : w < userSpaceEnd)
    (hav : v % pageSize = 0) (haw : w % pageSize = 0) (h : leafPos v = leafPos w) : v = w := by
  simp only [leafPos, List.cons.injEq, and_true] at h
  obtain ⟨h3, h2, h1, h0⟩ := h
  refine eq_of_tableIndex_eq hv hw hav haw ?_
  intro level hlevel
  interval_cases level <;> assumption

/-- The leaves of the given address spaces are the same in both states. -/
def SameLeaves (m m' : Memory) (spaces : Finset Nat) : Prop :=
  ∀ s ∈ spaces, ∀ p, UserPos p → p.length = 4 → entryAt m'.mem s p = entryAt m.mem s p

/-- The only changed leaf is the one at the given position. -/
def UpdatedLeaf (m m' : Memory) (spaces : Finset Nat) (s : Nat) (q : List Nat)
    (e : Option Nat) : Prop :=
  ∀ s' ∈ spaces, ∀ p, UserPos p → p.length = 4 →
    entryAt m'.mem s' p = if s' = s ∧ p = q then e else entryAt m.mem s' p

theorem SameEntries.leaves {m m' : Memory} {spaces : Finset Nat}
    (h : SameEntries m m' spaces) : SameLeaves m m' spaces :=
  fun s hs p hp _ => h s hs p hp

theorem UpdatedEntry.leaf {m m' : Memory} {spaces : Finset Nat} {s : Nat} {q : List Nat}
    {e : Option Nat} (h : UpdatedEntry m m' spaces s q e) : UpdatedLeaf m m' spaces s q e :=
  fun s' hs' p hp _ => h s' hs' p hp

theorem SameLeaves.trans {m m' m'' : Memory} {spaces : Finset Nat}
    (h : SameLeaves m m' spaces) (h' : SameLeaves m' m'' spaces) : SameLeaves m m'' spaces :=
  fun s hs p hp hlen => (h' s hs p hp hlen).trans (h s hs p hp hlen)

theorem SameLeaves.updated {m m' m'' : Memory} {spaces : Finset Nat} {s : Nat}
    {q : List Nat} {e : Option Nat} (h : SameLeaves m m' spaces)
    (h' : UpdatedLeaf m' m'' spaces s q e) : UpdatedLeaf m m'' spaces s q e := by
  intro s' hs' p hp hlen
  rw [h' s' hs' p hp hlen, h s' hs' p hp hlen]

theorem UpdatedLeaf.same {m m' m'' : Memory} {spaces : Finset Nat} {s : Nat}
    {q : List Nat} {e : Option Nat} (h : UpdatedLeaf m m' spaces s q e)
    (h' : SameLeaves m' m'' spaces) : UpdatedLeaf m m'' spaces s q e :=
  fun s' hs' p hp hlen => (h' s' hs' p hp hlen).trans (h s' hs' p hp hlen)

/-! ## Descending to a page table -/

/-- The ledger still holds, no leaf has changed and no table has moved. -/
structure Grown (m m' : Memory) (a : Account) : Prop where
  ledger : ∃ free, Ledger m' a free
  leaves : SameLeaves m m' a.spaces
  steady : Steady m m' a.spaces
  tables : ∀ s ∈ a.spaces, ∀ p, UserPos p → ∀ t, tableAt m.mem s p = some t →
    tableAt m'.mem s p = some t

variable {m : Memory} {a : Account} {free : List Nat}

theorem Ledger.grown (h : Ledger m a free) : Grown m m a :=
  ⟨⟨free, h⟩, fun _ _ _ _ _ => rfl, Steady.refl m a.spaces, fun _ _ _ _ _ ht => ht⟩

theorem Grown.trans {m' m'' : Memory} (h : Grown m m' a) (h' : Grown m' m'' a) :
    Grown m m'' a where
  ledger := h'.ledger
  leaves := h.leaves.trans h'.leaves
  steady := h.steady.trans h'.steady
  tables s hs p hp t ht := h'.tables s hs p hp t (h.tables s hs p hp t ht)

/-- A present entry above the leaves is a table entry and leads to the table at
its position. -/
theorem Ledger.table_entry (h : Ledger m a free) {s : Nat} (hs : s ∈ a.spaces)
    {q : List Nat} {i t : Nat} (hq : UserPos (q ++ [i])) (hlen : q.length < 3)
    (ht : tableAt m.mem s q = some t) (hpresent : isPresent (m.mem t i) = true) :
    hasFlag (m.mem t i) pageHuge = false ∧ hasFlag (m.mem t i) pageUser = true ∧
      tableAt m.mem s (q ++ [i]) = some (tableOf (m.mem t i)) := by
  have hentry : entryAt m.mem s (q ++ [i]) = some (m.mem t i) := by
    rw [entryAt_of_table ht, hpresent]
    rfl
  obtain ⟨g, hg, heq⟩ := h.tables s hs _ hq (by simp; omega) _ hentry
  refine ⟨?_, ?_, ?_⟩
  · rw [heq]
    exact hasFlag_tableEntry_huge hg
  · rw [heq]
    exact hasFlag_tableEntry_user g
  · rw [tableAt_of_ne_nil s (by simp), hentry]
    rfl

/-- An absent entry leads to no table. -/
theorem tableAt_snoc_of_absent {s : Nat} {q : List Nat} {i t : Nat}
    (ht : tableAt m.mem s q = some t) (habsent : isPresent (m.mem t i) = false) :
    tableAt m.mem s (q ++ [i]) = none := by
  rw [tableAt_of_ne_nil s (by simp), entryAt_of_table ht, habsent]
  rfl

/-- A present entry leads to a table. -/
theorem tableAt_snoc_of_present {s : Nat} {q : List Nat} {i t : Nat}
    (ht : tableAt m.mem s q = some t) (hpresent : isPresent (m.mem t i) = true) :
    tableAt m.mem s (q ++ [i]) = some (tableOf (m.mem t i)) := by
  rw [tableAt_of_ne_nil s (by simp), entryAt_of_table ht, hpresent]
  rfl

theorem allocTableDyn_nil (h : Allocator m []) : allocTableDyn m = (.ok none, m) := by
  simp [allocTableDyn, pfaAlloc_nil h]

theorem allocTableDyn_cons {f : Nat} {fs : List Nat} (h : Allocator m (f :: fs)) :
    allocTableDyn m = (.ok (some f), popFree m) := by
  simp [allocTableDyn, pfaAlloc_cons h]

/-- A present entry is followed without any effect. -/
theorem Ledger.nextLevelDyn_present (h : Ledger m a free) {s : Nat} (hs : s ∈ a.spaces)
    {q : List Nat} {i t : Nat} (hq : UserPos (q ++ [i])) (hlen : q.length < 3)
    (ht : tableAt m.mem s q = some t) (hpresent : isPresent (m.mem t i) = true)
    (create : Bool) :
    nextLevelDyn t i create m = (.ok (tableAt m.mem s (q ++ [i])), m) := by
  obtain ⟨hhuge, huser, htab⟩ := h.table_entry hs hq hlen ht hpresent
  rw [htab]
  simp [nextLevelDyn, hpresent, hhuge, huser]

/-- Looking for a table without creating it reads the position. -/
theorem Ledger.nextLevelDyn_find (h : Ledger m a free) {s : Nat} (hs : s ∈ a.spaces)
    {q : List Nat} {i t : Nat} (hq : UserPos (q ++ [i])) (hlen : q.length < 3)
    (ht : tableAt m.mem s q = some t) :
    nextLevelDyn t i false m = (.ok (tableAt m.mem s (q ++ [i])), m) := by
  cases hpresent : isPresent (m.mem t i) with
  | true => exact h.nextLevelDyn_present hs hq hlen ht hpresent false
  | false =>
      rw [tableAt_snoc_of_absent ht hpresent]
      simp [nextLevelDyn, hpresent]

/-- Looking for a table and creating it finds the position occupied, unless no
frame is left. -/
theorem Ledger.nextLevelDyn_create (h : Ledger m a free) {s : Nat} (hs : s ∈ a.spaces)
    {q : List Nat} {i t : Nat} (hq : UserPos (q ++ [i])) (hlen : q.length < 3)
    (ht : tableAt m.mem s q = some t) :
    Eff.Post (nextLevelDyn t i true) m (fun r m' => Grown m m' a ∧
      ∃ u, r = .ok u ∧ ∀ x, u = some x → tableAt m'.mem s (q ++ [i]) = some x) := by
  cases hpresent : isPresent (m.mem t i) with
  | true =>
      refine Eff.post_of_eq (h.nextLevelDyn_present hs hq hlen ht hpresent true) ?_
      exact ⟨h.grown, _, rfl, fun x hx => hx⟩
  | false =>
      cases free with
      | nil =>
          have hrun : nextLevelDyn t i true m = (.ok none, m) := by
            simp [nextLevelDyn, hpresent, Eff.bind_ok (allocTableDyn_nil h.allocator)]
          refine Eff.post_of_eq hrun ⟨h.grown, none, rfl, ?_⟩
          intro x hx
          cases hx
      | cons f fs =>
          obtain ⟨hled, hsame, hsteady⟩ := h.alloc
          have hhead : m.freeHead = f := h.allocator.list.1
          have htpos : UserPos q := UserPos.of_snoc q i hq
          have hrun : nextLevelDyn t i true m =
              (.ok (some f), (popFree m).store t i (tableEntry f)) := by
            simp [nextLevelDyn, hpresent, Eff.bind_ok (allocTableDyn_cons h.allocator), tableEntry]
          have ht' : tableAt (popFree m).mem s q = some t := by
            rw [hsame.tableAt hs htpos]
            exact ht
          have hempty : isPresent ((popFree m).mem t i) = false := by
            rw [popFree_mem_of_ne]
            · exact hpresent
            · rw [hhead]
              rintro rfl
              exact h.not_tableAt (Or.inl (List.mem_cons_self ..)) hs htpos ht
          have hheld : f ∉ a.held := fun hf =>
            h.held_free f hf (List.mem_cons_self ..)
          obtain ⟨hled', hupd, hsteady'⟩ := hled.install hs hq ht' hempty
            (Finset.mem_insert_self f a.held)
            (Or.inl ⟨by omega, rfl⟩) (fun _ k => hhead ▸ popFree_mem_head m k)
          have hacc : (insert f a.held).erase f = a.held := Finset.erase_insert hheld
          simp only [hacc] at hled'
          have hframe : Frame f := h.frame f (h.free_boot f (List.mem_cons_self ..))
          have hnil : q ++ [i] ≠ [] := by simp
          refine Eff.post_of_eq hrun ⟨⟨⟨fs, hled'⟩, ?_, hsteady.trans hsteady', ?_⟩,
            some f, rfl, ?_⟩
          · intro s' hs' p hp hp4
            rw [hupd s' hs' p hp, if_neg, hsame s' hs' p hp]
            rintro ⟨_, rfl⟩
            rw [List.length_append, List.length_singleton] at hp4
            omega
          · intro s' hs' p hp u hu
            rw [hupd.tableAt hnil hs' hp, if_neg, hsame.tableAt hs' hp, hu]
            rintro ⟨rfl, rfl⟩
            rw [tableAt_snoc_of_absent ht hpresent] at hu
            cases hu
          · intro x hx
            cases hx
            rw [hupd.tableAt hnil hs hq, if_pos ⟨rfl, rfl⟩, Option.map_some,
              tableOf_tableEntry hframe]

/-- The table a user address needs at each of the three upper levels. -/
theorem userPos_levels {v : Nat} (hv : v < userSpaceEnd) :
    UserPos ([] ++ [tableIndex 3 v]) ∧ UserPos ([tableIndex 3 v] ++ [tableIndex 2 v]) ∧
      UserPos ([tableIndex 3 v, tableIndex 2 v] ++ [tableIndex 1 v]) ∧
      UserPos ([tableIndex 3 v, tableIndex 2 v, tableIndex 1 v] ++ [tableIndex 0 v]) := by
  have h0 : UserPos ([tableIndex 3 v, tableIndex 2 v, tableIndex 1 v] ++ [tableIndex 0 v]) :=
    userPos_leafPos hv
  have h1 := UserPos.of_snoc _ _ h0
  have h2 := UserPos.of_snoc [tableIndex 3 v, tableIndex 2 v] _ h1
  have h3 := UserPos.of_snoc [tableIndex 3 v] _ h2
  exact ⟨h3, h2, h1, h0⟩

/-- The position of the page table of an address. -/
def ptPos (v : Nat) : List Nat :=
  [tableIndex 3 v, tableIndex 2 v, tableIndex 1 v]

/-- Descending with creation ends at the page table of the address, or finds no
frame left; in both cases the tables have only grown. -/
theorem Ledger.walkToTable_create (h : Ledger m a free) {s : Nat} (hs : s ∈ a.spaces)
    {v : Nat} (hv : v < userSpaceEnd) (missing : Nstatus) :
    Eff.Post (walkToTable s v true missing) m (fun r m' => Grown m m' a ∧
      (r = .error missing ∨ ∃ pt, r = .ok pt ∧ tableAt m'.mem s (ptPos v) = some pt)) := by
  obtain ⟨hp3, hp2, hp1, _⟩ := userPos_levels hv
  unfold walkToTable
  refine Eff.post_bind (h.nextLevelDyn_create hs hp3 (by decide) rfl) ?_ ?_
  · rintro e m' ⟨_, u, hu, _⟩
    cases hu
  rintro u m1 ⟨hg1, _, ⟨⟩, ht1⟩
  cases u with
  | none => exact Eff.post_of_eq rfl ⟨hg1, Or.inl rfl⟩
  | some pdpt =>
      obtain ⟨free1, hl1⟩ := hg1.ledger
      refine Eff.post_bind (hl1.nextLevelDyn_create hs hp2 (by simp) (ht1 pdpt rfl)) ?_ ?_
      · rintro e m' ⟨_, u, hu, _⟩
        cases hu
      rintro u m2 ⟨hg2, _, ⟨⟩, ht2⟩
      cases u with
      | none => exact Eff.post_of_eq rfl ⟨hg1.trans hg2, Or.inl rfl⟩
      | some pd =>
          obtain ⟨free2, hl2⟩ := hg2.ledger
          refine Eff.post_bind (hl2.nextLevelDyn_create hs hp1 (by simp) (ht2 pd rfl)) ?_ ?_
          · rintro e m' ⟨_, u, hu, _⟩
            cases hu
          rintro u m3 ⟨hg3, _, ⟨⟩, ht3⟩
          have hg : Grown m m3 a := (hg1.trans hg2).trans hg3
          cases u with
          | none => exact Eff.post_of_eq rfl ⟨hg, Or.inl rfl⟩
          | some pt => exact Eff.post_of_eq rfl ⟨hg, Or.inr ⟨pt, rfl, ht3 pt rfl⟩⟩

/-- Descending without creation has no effect and reads the position of the page
table. -/
theorem Ledger.walkToTable_find (h : Ledger m a free) {s : Nat} (hs : s ∈ a.spaces)
    {v : Nat} (hv : v < userSpaceEnd) (missing : Nstatus) :
    walkToTable s v false missing m =
      (match tableAt m.mem s (ptPos v) with
        | none => .error missing
        | some pt => .ok pt, m) := by
  obtain ⟨hp3, hp2, hp1, _⟩ := userPos_levels hv
  have hmiss : ∀ {q : List Nat} (r : List Nat), q ++ r = ptPos v →
      tableAt m.mem s q = none → tableAt m.mem s (ptPos v) = none := by
    intro q r hqr hq
    rw [← hqr]
    exact TableTree.tableAt_append_eq_none r hq
  unfold walkToTable
  rw [Eff.bind_ok (h.nextLevelDyn_find hs hp3 (by decide) rfl)]
  cases ht1 : tableAt m.mem s ([] ++ [tableIndex 3 v]) with
  | none => rw [hmiss [tableIndex 2 v, tableIndex 1 v] rfl ht1]; rfl
  | some pdpt =>
      simp only
      rw [Eff.bind_ok (h.nextLevelDyn_find hs hp2 (by simp) ht1)]
      cases ht2 : tableAt m.mem s ([tableIndex 3 v] ++ [tableIndex 2 v]) with
      | none => rw [hmiss [tableIndex 1 v] rfl ht2]; rfl
      | some pd =>
          simp only
          rw [Eff.bind_ok (h.nextLevelDyn_find hs hp1 (by simp) ht2)]
          have hpt : [tableIndex 3 v, tableIndex 2 v] ++ [tableIndex 1 v] = ptPos v := rfl
          rw [hpt]
          cases tableAt m.mem s (ptPos v) with
          | none => rfl
          | some pt => rfl

/-! ## Mapping -/

/-- The arguments with which a mapping call gets as far as the page tables. -/
structure MapArgs (nx : Bool) (v flags : Nat) : Prop where
  aligned : v % pageSize = 0
  ne_zero : v ≠ 0
  user : v < userSpaceEnd
  writeXorExecute : nx = true → hasFlag (effectiveFlags nx flags) pageRw = true →
    hasFlag (effectiveFlags nx flags) pageNx = true

/-- What a successful mapping call has done. -/
structure Mapped (m m' : Memory) (a : Account) (s p v flags : Nat) : Prop where
  args : MapArgs m.nxSupported v flags
  unbound : entryAt m.mem s (leafPos v) = none
  ledger : ∃ free, Ledger m' { a with held := a.held.erase p } free
  leaf : UpdatedLeaf m m' a.spaces s (leafPos v)
    (some (leafEntry p (effectiveFlags m.nxSupported flags)))
  steady : Steady m m' a.spaces

/-- Mapping a held frame binds exactly the leaf of the page, or fails and changes
no leaf. -/
theorem Ledger.pagingMapPage_post (h : Ledger m a free) {s p : Nat} (hs : s ∈ a.spaces)
    (hp : p ∈ a.held) (v flags : Nat) :
    Eff.Post (pagingMapPage s p v flags) m (fun r m' =>
      (r = .ok () ∧ Mapped m m' a s p v flags) ∨ (∃ e, r = .error e ∧ Grown m m' a)) := by
  have hframe : Frame p := h.frame p (h.held_boot p hp)
  have hstop : ∀ e, Eff.Post (Eff.fail e : MemM Unit) m (fun r m' =>
      (r = .ok () ∧ Mapped m m' a s p v flags) ∨ (∃ e, r = .error e ∧ Grown m m' a)) :=
    fun e => Eff.post_of_eq rfl (Or.inr ⟨e, rfl, h.grown⟩)
  unfold pagingMapPage
  split
  · exact hstop _
  split
  · exact hstop _
  next halign =>
  split
  · exact hstop _
  next huser =>
  split
  · exact hstop _
  rw [not_or, not_not, not_not] at halign
  rw [not_or, not_or, not_le] at huser
  have hv : v < userSpaceEnd := huser.2.2
  refine Eff.post_gets_bind ?_
  dsimp only
  split
  · exact hstop _
  next hwx =>
  have hargs : MapArgs m.nxSupported v flags := by
    refine ⟨halign.2, huser.1, hv, fun hnx hrw => ?_⟩
    by_contra hcon
    exact hwx ⟨hnx, hrw, hcon⟩
  refine Eff.post_bind (h.walkToTable_create hs hv .NoutOfMemory) ?_ ?_
  · rintro e m' ⟨hg, _⟩
    exact Or.inr ⟨e, rfl, hg⟩
  rintro pt m' ⟨hg, hr | ⟨_, ⟨⟩, htab⟩⟩
  · cases hr
  have hpos := (userPos_levels hv).2.2.2
  have hleaf : leafPos v = ptPos v ++ [tableIndex 0 v] := rfl
  refine Eff.post_gets_bind ?_
  split
  · exact Eff.post_of_eq rfl (Or.inr ⟨_, rfl, hg⟩)
  next habsent =>
  rw [Bool.not_eq_true] at habsent
  obtain ⟨free', hled⟩ := hg.ledger
  have hgood : GoodEntry m'.nxSupported ((ptPos v).length + 1) p
      (leafEntry p (effectiveFlags m.nxSupported flags)) := by
    refine Or.inr ⟨rfl, _, rfl, ?_⟩
    rw [hg.steady.nx]
    exact hargs.writeXorExecute
  obtain ⟨hled', hupd, hsteady⟩ := hled.install hs hpos htab habsent hp hgood
    (fun hlt => absurd hlt (by simp))
  refine Eff.post_of_eq rfl (Or.inl ⟨rfl, ?_⟩)
  exact {
    args := hargs
    unbound := by
      rw [← hg.leaves s hs _ (userPos_leafPos hv) rfl, hleaf, entryAt_of_table htab]
      simp only [habsent]
      rfl
    ledger := ⟨free', hled'⟩
    leaf := hg.leaves.updated hupd.leaf
    steady := hg.steady.trans hsteady }

/-! ## Unmapping -/

/-- What a successful unmapping call has done, up to the place of the frame. -/
structure Unmapped (m m' : Memory) (a : Account) (s v e : Nat) : Prop where
  aligned : v % pageSize = 0
  ne_zero : v ≠ 0
  user : v < userSpaceEnd
  bound : entryAt m.mem s (leafPos v) = some e
  leaf : UpdatedLeaf m m' a.spaces s (leafPos v) none
  steady : Steady m m' a.spaces

/-- Nothing is bound to a page, if it can be bound at all. -/
def Unbound (m : Memory) (s v : Nat) : Prop :=
  v ≠ 0 → v % pageSize = 0 → v < userSpaceEnd → entryAt m.mem s (leafPos v) = none

theorem isCanonical_of_user {v : Nat} (hv : v < userSpaceEnd) : isCanonical v = true := by
  have hzero : v >>> 47 = 0 := by
    rw [Nat.shiftRight_eq_div_pow]
    simp only [userSpaceEnd] at hv
    omega
  simp [isCanonical, hzero]

/-- Clearing a leaf hands its frame to the caller; it fails only if the page is
not mapped. -/
theorem Ledger.clearLeaf_post (h : Ledger m a free) {s : Nat} (hs : s ∈ a.spaces) (v : Nat) :
    Eff.Post (clearLeaf s v) m (fun r m' =>
      (∃ e, r = .ok e ∧ Unmapped m m' a s v e ∧ tableOf e ∉ a.held ∧
        Ledger m' { a with held := insert (tableOf e) a.held } free) ∨
      (∃ e, r = .error e ∧ m' = m ∧ Unbound m s v)) := by
  have hstop : ∀ e, Unbound m s v → Eff.Post (Eff.fail e : MemM Nat) m (fun r m' =>
      (∃ e, r = .ok e ∧ Unmapped m m' a s v e ∧ tableOf e ∉ a.held ∧
        Ledger m' { a with held := insert (tableOf e) a.held } free) ∨
      (∃ e, r = .error e ∧ m' = m ∧ Unbound m s v)) :=
    fun e hun => Eff.post_of_eq rfl (Or.inr ⟨e, rfl, rfl, hun⟩)
  unfold clearLeaf
  split
  next hzero =>
    exact absurd hzero (h.frame s (h.space_owned hs).1).ne_zero
  split
  next hbad =>
    refine hstop _ (fun hv0 halign hv => ?_)
    rcases hbad with hb | hb | hb | hb
    · exact absurd hb hv0
    · exact absurd halign hb
    · exact absurd (isCanonical_of_user hv) (by simp [hb])
    · exact absurd hv (Nat.not_lt.mpr hb)
  next hargs =>
  rw [not_or, not_or, not_or, not_not, not_le] at hargs
  obtain ⟨hv0, halign, _, hv⟩ := hargs
  have hwalk := h.walkToTable_find hs hv .NinvalidArg
  cases htab : tableAt m.mem s (ptPos v) with
  | none =>
      rw [htab] at hwalk
      exact Eff.post_of_eq (Eff.bind_error hwalk)
        (Or.inr ⟨_, rfl, rfl, fun _ _ _ => entryAt_of_no_table htab _⟩)
  | some pt =>
      rw [htab] at hwalk
      have hpos : UserPos (ptPos v ++ [tableIndex 0 v]) := (userPos_levels hv).2.2.2
      have hleaf : leafPos v = ptPos v ++ [tableIndex 0 v] := rfl
      cases hpresent : isPresent (m.mem pt (tableIndex 0 v)) with
      | false =>
          refine Eff.post_of_eq ?_ (Or.inr ⟨.NinvalidArg, rfl, rfl, fun _ _ _ => ?_⟩)
          · rw [Eff.bind_ok hwalk]
            simp [hpresent]
          · rw [hleaf, entryAt_of_table htab, hpresent]
            rfl
      | true =>
          obtain ⟨hled, hupd, hsteady, hheld, _⟩ := h.unmap hs hpos rfl htab hpresent
          have hentry : entryAt m.mem s (leafPos v) = some (m.mem pt (tableIndex 0 v)) := by
            rw [hleaf, entryAt_of_table htab, hpresent]
            rfl
          refine Eff.post_of_eq ?_ (Or.inl ⟨_, rfl,
            ⟨halign, hv0, hv, hentry, hupd.leaf, hsteady⟩, hheld, hled⟩)
          rw [Eff.bind_ok hwalk]
          simp [hpresent]

/-- Unmapping a page hands its frame to the caller. -/
theorem Ledger.pagingUnmapPage_post (h : Ledger m a free) {s : Nat} (hs : s ∈ a.spaces)
    (v : Nat) :
    Eff.Post (pagingUnmapPage s v) m (fun r m' =>
      (∃ e, r = .ok () ∧ Unmapped m m' a s v e ∧
        Ledger m' { a with held := insert (tableOf e) a.held } free) ∨
      (∃ e, r = .error e ∧ m' = m ∧ Unbound m s v)) := by
  unfold pagingUnmapPage
  refine Eff.post_bind (h.clearLeaf_post hs v) ?_ ?_
  · rintro e m' (⟨_, hcon, _⟩ | ⟨_, _, hm⟩)
    · cases hcon
    · exact Or.inr ⟨e, rfl, hm⟩
  · rintro e m' (⟨_, ⟨⟩, hun, _, hled⟩ | ⟨_, hcon, _⟩)
    · exact Eff.post_of_eq rfl (Or.inl ⟨e, rfl, hun, hled⟩)
    · cases hcon

/-- Unmapping and freeing a page puts its frame back on the free list. -/
theorem Ledger.pagingUnmapFreePage_post (h : Ledger m a free) {s : Nat} (hs : s ∈ a.spaces)
    (v : Nat) :
    Eff.Post (pagingUnmapFreePage s v) m (fun r m' =>
      (∃ e, r = .ok () ∧ Unmapped m m' a s v e ∧ Ledger m' a (tableOf e :: free)) ∨
      (∃ e, r = .error e ∧ m' = m ∧ Unbound m s v)) := by
  unfold pagingUnmapFreePage
  refine Eff.post_bind (h.clearLeaf_post hs v) ?_ ?_
  · rintro e m' (⟨_, hcon, _⟩ | ⟨_, _, hm⟩)
    · cases hcon
    · exact Or.inr ⟨e, rfl, hm⟩
  · rintro e m' (⟨_, ⟨⟩, hun, hheld, hled⟩ | ⟨_, hcon, _⟩)
    swap
    · cases hcon
    have hmem : tableOf e ∈ insert (tableOf e) a.held := Finset.mem_insert_self _ _
    have hframe : Frame (tableOf e) := hled.frame _ (hled.held_boot _ hmem)
    obtain ⟨hled', hsame, hsteady⟩ := hled.release hmem
    have hacc : (insert (tableOf e) a.held).erase (tableOf e) = a.held :=
      Finset.erase_insert hheld
    simp only [hacc] at hled'
    refine Eff.post_of_eq (pfaFree_push hframe.ne_zero hframe.aligned)
      (Or.inl ⟨e, rfl, ?_, hled'⟩)
    exact { hun with
      leaf := hun.leaf.same hsame.leaves
      steady := hun.steady.trans hsteady }

/-! ## Opening an address space -/

/-- A new address space has an empty user half and shares the kernel half; the
others are left alone. -/
theorem Ledger.pagingAddrspaceCreate_post (h : Ledger m a free) :
    Eff.Post pagingAddrspaceCreate m (fun r m' =>
      (∃ s free', r = .ok s ∧ free = s :: free' ∧ s ∉ a.spaces ∧
        Ledger m' { a with spaces := insert s a.spaces } free' ∧
        (∀ p, UserPos p → entryAt m'.mem s p = none) ∧
        m'.mem s hhdmPml4Index = a.base m.kernelPml4 hhdmPml4Index ∧
        m'.mem s kernelPml4Index = a.base m.kernelPml4 kernelPml4Index ∧
        SameEntries m m' a.spaces ∧ Steady m m' a.spaces) ∨
      (∃ e, r = .error e ∧ m' = m)) := by
  unfold pagingAddrspaceCreate
  refine Eff.post_gets_bind ?_
  split
  · exact Eff.post_of_eq rfl (Or.inr ⟨_, rfl, rfl⟩)
  cases free with
  | nil =>
      refine Eff.post_of_eq ?_ (Or.inr ⟨.NoutOfMemory, rfl, rfl⟩)
      rw [Eff.bind_ok (allocTableDyn_nil h.allocator)]
      rfl
  | cons s fs =>
      obtain ⟨hled, hsame, hsteady⟩ := h.alloc
      have hhead : m.freeHead = s := h.allocator.list.1
      have hzero : ∀ i, (popFree m).mem s i = 0 := fun i => hhead ▸ popFree_mem_head m i
      have hsmem : s ∈ insert s a.held := Finset.mem_insert_self s a.held
      have hkernel : ∀ i, (popFree m).mem m.kernelPml4 i = a.base m.kernelPml4 i := by
        intro i
        rw [hled.outside m.kernelPml4 h.kernel]
      -- the two stores are one overwriting of a held frame
      let words : Nat → Nat := Function.update (Function.update (fun _ => 0) hhdmPml4Index
        (a.base m.kernelPml4 hhdmPml4Index)) kernelPml4Index
        (a.base m.kernelPml4 kernelPml4Index)
      let m' : Memory := { popFree m with mem := Function.update (popFree m).mem s words }
      have hks : m.kernelPml4 ≠ s := by
        intro hcon
        apply h.kernel
        rw [hcon]
        exact h.free_boot s (List.mem_cons_self ..)
      have hrun : (do
          match ← allocTableDyn with
          | none => Eff.fail .NoutOfMemory
          | some pml4 =>
              Eff.modify (fun m' => m'.store pml4 hhdmPml4Index
                (m'.mem m.kernelPml4 hhdmPml4Index))
              Eff.modify (fun m' => m'.store pml4 kernelPml4Index
                (m'.mem m.kernelPml4 kernelPml4Index))
              pure pml4 : MemM Nat) m = (.ok s, m') := by
        rw [Eff.bind_ok (allocTableDyn_cons h.allocator)]
        have hfun : (popFree m).mem s = fun _ => 0 := funext hzero
        simp only [Eff.modify_bind_run, Eff.pure_run, Memory.store_mem_frame _ hks, hkernel]
        simp only [Memory.store, Function.update_self, Function.update_idem, hfun]
        rfl
      obtain ⟨hled', hsame', hsteady'⟩ := hled.scribble (Or.inl hsmem) words
      have hself : ∀ i, m'.mem s i = words i := by
        intro i
        simp [m']
      have hlower : ∀ i < hhdmPml4Index, m'.mem s i = 0 := by
        intro i hi
        rw [hself]
        have h1 : i ≠ kernelPml4Index := by
          simp only [hhdmPml4Index, kernelPml4Index] at *
          omega
        have h2 : i ≠ hhdmPml4Index := by omega
        simp [words, h1, h2]
      have hupper : ∀ i, hhdmPml4Index ≤ i →
          m'.mem s i = 0 ∨ m'.mem s i = a.base m'.kernelPml4 i := by
        intro i _
        rw [hself]
        by_cases h1 : i = kernelPml4Index
        · right
          simp [words, h1, m']
        · by_cases h2 : i = hhdmPml4Index
          · right
            subst h2
            simp [words, m', kernelPml4Index, hhdmPml4Index]
          · left
            simp [words, h1, h2]
      obtain ⟨hled'', hempty⟩ := hled'.newSpace hsmem hlower hupper
      have hheld : s ∉ a.held := fun hs => h.held_free s hs (List.mem_cons_self ..)
      have hnew : s ∉ a.spaces := fun hs =>
        (h.space_owned hs).2.1 (List.mem_cons_self ..)
      have hacc : (insert s a.held).erase s = a.held := Finset.erase_insert hheld
      simp only [hacc] at hled''
      refine Eff.post_of_eq hrun (Or.inl ⟨s, fs, rfl, rfl, hnew, hled'', hempty, ?_, ?_, ?_,
        hsteady.trans hsteady'⟩)
      · rw [hself]
        simp [words, kernelPml4Index, hhdmPml4Index]
      · rw [hself]
        simp [words]
      · intro s' hs' p hp
        rw [hsame' s' hs' p hp, hsame s' hs' p hp]

end Mm
end Nyxis
