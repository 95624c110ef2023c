import Nyxis.Mm.Mapping
import Mathlib.Data.List.Nodup

/-!
# Giving an address space back

{lit}`paging_addrspace_destroy` reads the tables of an address space while it
threads their frames into the free list, and the link of a free frame overwrites
the first word of the frame.  The traversal is still right because a table is
released only after its last entry has been read.

Main results:

- Theorems {lit}`eachEntry_run` and {lit}`destroyEntry_run`: the loops release the
  frames of the subtrees in order.
- Theorem {lit}`Ledger.pagingAddrspaceDestroy_run`: destroying an address space
  releases each of its frames exactly once.
-/

namespace Nyxis
namespace Mm

/-- The frames released for one entry, in order: what lies below it, then the
frame it leads to. -/
def subtree (mem : Nat → Nat → Nat) : (level entry : Nat) → List Nat
  | 0, entry => if isPresent entry then [tableOf entry] else []
  | level + 1, entry =>
      if isPresent entry && (level == 2 || !hasFlag entry pageHuge) then
        (List.range' 0 entriesPerTable).flatMap
          (fun j => subtree mem level (mem (tableOf entry) j)) ++ [tableOf entry]
      else []

/-- The frames released for the entries {lit}`[i, i + n)` of a table. -/
def below (mem : Nat → Nat → Nat) (level table i n : Nat) : List Nat :=
  (List.range' i n).flatMap (fun j => subtree mem level (mem table j))

/-- Release frames one after another. -/
def releaseAll (m : Memory) (frames : List Nat) : Memory :=
  frames.foldl pushFree m

variable {m : Memory} {a : Account} {free : List Nat}

@[simp]
theorem releaseAll_nil (m : Memory) : releaseAll m [] = m :=
  rfl

@[simp]
theorem releaseAll_cons (m : Memory) (f : Nat) (fs : List Nat) :
    releaseAll m (f :: fs) = releaseAll (pushFree m f) fs :=
  rfl

theorem releaseAll_append (m : Memory) (fs gs : List Nat) :
    releaseAll m (fs ++ gs) = releaseAll (releaseAll m fs) gs :=
  List.foldl_append

/-- Releasing frames writes only these frames. -/
theorem releaseAll_mem_of_notMem {f : Nat} {fs : List Nat} (hf : f ∉ fs) :
    (releaseAll m fs).mem f = m.mem f := by
  induction fs generalizing m with
  | nil => rfl
  | cons g fs ih =>
      rw [List.mem_cons, not_or] at hf
      rw [releaseAll_cons, ih hf.2, pushFree_mem_of_ne hf.1]

theorem below_succ (mem : Nat → Nat → Nat) (level table i n : Nat) :
    below mem level table i (n + 1) =
      subtree mem level (mem table i) ++ below mem level table (i + 1) n := by
  simp [below, List.range'_succ]

/-! ## The traversal -/

/-- A subtree is determined by the contents of its own frames. -/
theorem subtree_congr {mem mem' : Nat → Nat → Nat} {level entry : Nat}
    (h : ∀ f ∈ subtree mem level entry, mem' f = mem f) :
    subtree mem' level entry = subtree mem level entry := by
  induction level generalizing entry with
  | zero => rfl
  | succ level ih =>
      rw [subtree] at h ⊢
      rw [subtree]
      split at h
      next hdesc =>
        rw [if_pos hdesc, if_pos hdesc]
        have htable : mem' (tableOf entry) = mem (tableOf entry) :=
          h _ (List.mem_append_right _ (List.mem_singleton_self _))
        rw [htable]
        congr 1
        refine List.flatMap_congr (fun j hj => ih (fun f hf => h f ?_))
        exact List.mem_append_left _ (List.mem_flatMap.mpr ⟨j, hj, hf⟩)
      next hdesc => rw [if_neg hdesc, if_neg hdesc]

theorem below_congr {mem mem' : Nat → Nat → Nat} {level table i n : Nat}
    (htable : mem' table = mem table)
    (h : ∀ f ∈ below mem level table i n, mem' f = mem f) :
    below mem' level table i n = below mem level table i n := by
  rw [below, below, htable]
  refine List.flatMap_congr (fun j hj => subtree_congr (fun f hf => h f ?_))
  exact List.mem_flatMap.mpr ⟨j, hj, hf⟩

/-- A loop over entries releases the frames of the subtrees in order, if its body
releases the frames of one subtree and no frame occurs twice among them. -/
theorem eachEntry_run {level table : Nat} {body : Nat → MemM Unit}
    (hbody : ∀ m entry, (subtree m.mem level entry).Nodup →
      (∀ f ∈ subtree m.mem level entry, Frame f) →
      body entry m = (.ok (), releaseAll m (subtree m.mem level entry)))
    {i n : Nat} {m : Memory} (hnodup : (below m.mem level table i n).Nodup)
    (htable : table ∉ below m.mem level table i n)
    (hframe : ∀ f ∈ below m.mem level table i n, Frame f) :
    eachEntry table body i n m = (.ok (), releaseAll m (below m.mem level table i n)) := by
  induction n generalizing i m with
  | zero => simp [eachEntry, below]
  | succ n ih =>
      rw [below_succ] at hnodup htable hframe ⊢
      obtain ⟨hhead, hrest, hdisj⟩ := List.nodup_append.mp hnodup
      rw [List.mem_append, not_or] at htable
      have hrun := hbody m (m.mem table i) hhead
        (fun f hf => hframe f (List.mem_append_left _ hf))
      -- the frames released so far are not among those still to be read
      have hkeep : ∀ f, f ∉ subtree m.mem level (m.mem table i) →
          (releaseAll m (subtree m.mem level (m.mem table i))).mem f = m.mem f :=
        fun f hf => releaseAll_mem_of_notMem hf
      have hbelow := below_congr (hkeep table htable.1) (fun f hf =>
        hkeep f (fun hcon => hdisj f hcon f hf rfl) :
        ∀ f ∈ below m.mem level table (i + 1) n, _)
      have hih := @ih (i + 1) (releaseAll m (subtree m.mem level (m.mem table i)))
      rw [hbelow] at hih
      rw [eachEntry, Eff.gets_bind_run, Eff.bind_ok hrun, hih hrest htable.2
        (fun f hf => hframe f (List.mem_append_right _ hf)), ← releaseAll_append]

/-- Releasing an entry releases the frames of its subtree in order, provided that
no frame occurs twice among them. -/
theorem destroyEntry_run (level : Nat) (m : Memory) (entry : Nat)
    (hnodup : (subtree m.mem level entry).Nodup)
    (hframe : ∀ f ∈ subtree m.mem level entry, Frame f) :
    destroyEntry level entry m = (.ok (), releaseAll m (subtree m.mem level entry)) := by
  induction level generalizing m entry with
  | zero =>
      cases hp : isPresent entry with
      | false => simp [destroyEntry, subtree, hp]
      | true =>
          have hsub : subtree m.mem 0 entry = [tableOf entry] := by
            simp [subtree, hp]
          rw [hsub] at hframe ⊢
          have hfr := hframe (tableOf entry) (by simp)
          simp [destroyEntry, hp, pfaFree_push hfr.ne_zero hfr.aligned]
  | succ level ih =>
      cases hd : (isPresent entry && (level == 2 || !hasFlag entry pageHuge)) with
      | false =>
          have hsub : subtree m.mem (level + 1) entry = [] := by
            simp [subtree, hd]
          rw [hsub]
          simp only [destroyEntry, hd, Bool.false_eq_true, if_false]
          rfl
      | true =>
          have hsub : subtree m.mem (level + 1) entry =
              below m.mem level (tableOf entry) 0 entriesPerTable ++ [tableOf entry] := by
            simp [subtree, hd, below]
          rw [hsub] at hnodup hframe ⊢
          obtain ⟨hinner, _, hdisj⟩ := List.nodup_append.mp hnodup
          have hself : tableOf entry ∉ below m.mem level (tableOf entry) 0 entriesPerTable :=
            fun hcon => hdisj _ hcon _ (List.mem_singleton_self _) rfl
          have hrun := eachEntry_run (fun m e => ih m e) hinner hself
            (fun f hf => hframe f (List.mem_append_left _ hf))
          have hfr := hframe (tableOf entry) (by simp)
          simp only [destroyEntry, hd, if_true, Eff.bind_ok hrun, Eff.ignore_run,
            pfaFree_push hfr.ne_zero hfr.aligned, releaseAll_append]
          rfl

/-! ## The frames of an address space -/

/-- A position of the user half can be extended below the last level. -/
theorem UserPos.snoc {q : List Nat} {j k : Nat} (hq : UserPos (q ++ [j]))
    (hlen : q.length < 3) (hk : k < entriesPerTable) : UserPos (q ++ [j] ++ [k]) where
  length_le := by
    simp only [List.length_append, List.length_singleton]
    omega
  lt i hi := by
    rcases List.mem_append.mp hi with hi | hi
    · exact hq.lt i hi
    · rw [List.mem_singleton.mp hi]
      exact hk
  top i hi := hq.top i (by cases q <;> simpa using hi)

/-- Below an absent entry there is no frame. -/
theorem tableAt_below_absent {s : Nat} {q : List Nat} {j t : Nat}
    (ht : tableAt m.mem s q = some t) (habsent : isPresent (m.mem t j) = false)
    (r : List Nat) : tableAt m.mem s (q ++ j :: r) = none := by
  rw [show q ++ j :: r = q ++ [j] ++ r by simp]
  exact TableTree.tableAt_append_eq_none r (tableAt_snoc_of_absent ht habsent)

/-- The frames of a subtree are the frames at the positions below its entry. -/
theorem Ledger.mem_subtree (h : Ledger m a free) {s : Nat} (hs : s ∈ a.spaces)
    (level : Nat) {q : List Nat} {j t : Nat} (hq : UserPos (q ++ [j]))
    (hlen : q.length + level = 3) (ht : tableAt m.mem s q = some t) (f : Nat) :
    f ∈ subtree m.mem level (m.mem t j) ↔
      ∃ r, UserPos (q ++ j :: r) ∧ tableAt m.mem s (q ++ j :: r) = some f := by
  induction level generalizing q j t with
  | zero =>
      cases hp : isPresent (m.mem t j) with
      | false => simp [subtree, hp, tableAt_below_absent ht hp]
      | true =>
          simp only [subtree, hp, if_true, List.mem_singleton]
          constructor
          · rintro rfl
            exact ⟨[], hq, tableAt_snoc_of_present ht hp⟩
          · rintro ⟨r, hr, hf⟩
            have hnil : r = [] := by
              have := hr.length_le
              simp only [List.length_append, List.length_cons] at this
              exact List.eq_nil_of_length_eq_zero (by omega)
            subst hnil
            rw [tableAt_snoc_of_present ht hp] at hf
            exact (Option.some.inj hf).symm
  | succ level ih =>
      cases hp : isPresent (m.mem t j) with
      | false => simp [subtree, hp, tableAt_below_absent ht hp]
      | true =>
          obtain ⟨hhuge, _, htab⟩ := h.table_entry hs hq (by omega) ht hp
          have hd : (isPresent (m.mem t j) &&
              (level == 2 || !hasFlag (m.mem t j) pageHuge)) = true := by
            simp [hp, hhuge]
          have hpos := fun k (hk : k < entriesPerTable) => hq.snoc (by omega) hk
          have hstep := fun k (hk : k < entriesPerTable) =>
            @ih (q ++ [j]) k (tableOf (m.mem t j)) (hpos k hk)
              (by simp only [List.length_append, List.length_singleton]; omega) htab
          simp only [subtree, hd, if_true, List.mem_append, List.mem_singleton,
            List.mem_flatMap, List.mem_range'_1, Nat.zero_le, Nat.zero_add, true_and]
          constructor
          · rintro (⟨k, hk, hf⟩ | rfl)
            · obtain ⟨r, hr, hfr⟩ := (hstep k hk).mp hf
              exact ⟨k :: r, by simpa using hr, by simpa using hfr⟩
            · exact ⟨[], hq, htab⟩
          · rintro ⟨r, hr, hf⟩
            cases r with
            | nil =>
                right
                rw [htab] at hf
                exact (Option.some.inj hf).symm
            | cons k r =>
                left
                have hk : k < entriesPerTable := hr.lt k (by simp)
                exact ⟨k, hk, (hstep k hk).mpr ⟨r, by simpa using hr, by simpa using hf⟩⟩

/-- Subtrees of different entries share no frame. -/
theorem Ledger.subtree_disjoint (h : Ledger m a free) {s : Nat} (hs : s ∈ a.spaces)
    (level : Nat) {q : List Nat} {j k t : Nat} (hj : UserPos (q ++ [j]))
    (hk : UserPos (q ++ [k])) (hlen : q.length + level = 3)
    (ht : tableAt m.mem s q = some t) (hne : j ≠ k) :
    List.Disjoint (subtree m.mem level (m.mem t j)) (subtree m.mem level (m.mem t k)) := by
  intro f hfj hfk
  obtain ⟨r, hr, hf⟩ := (h.mem_subtree hs level hj hlen ht f).mp hfj
  obtain ⟨r', hr', hf'⟩ := (h.mem_subtree hs level hk hlen ht f).mp hfk
  have heq := (h.unique s hs s hs _ _ hr hr' f hf hf').2
  exact hne (List.cons.inj (List.append_cancel_left heq)).1

/-- No frame occurs twice among the entries of a table, given that it does not
occur twice below one of them. -/
theorem Ledger.below_nodup (h : Ledger m a free) {s : Nat} (hs : s ∈ a.spaces)
    (level : Nat) {q : List Nat} {t i n : Nat} (hlen : q.length + level = 3)
    (ht : tableAt m.mem s q = some t)
    (hpos : ∀ j ∈ List.range' i n, UserPos (q ++ [j]))
    (hsub : ∀ j ∈ List.range' i n, (subtree m.mem level (m.mem t j)).Nodup) :
    (below m.mem level t i n).Nodup := by
  refine List.nodup_flatMap.mpr ⟨hsub, ?_⟩
  refine (List.nodup_range' : (List.range' i n).Nodup).imp_of_mem ?_
  intro j k hj hk hne
  exact h.subtree_disjoint hs level (hpos j hj) (hpos k hk) hlen ht hne

/-- No frame occurs twice in a subtree. -/
theorem Ledger.subtree_nodup (h : Ledger m a free) {s : Nat} (hs : s ∈ a.spaces)
    (level : Nat) {q : List Nat} {j t : Nat} (hq : UserPos (q ++ [j]))
    (hlen : q.length + level = 3) (ht : tableAt m.mem s q = some t) :
    (subtree m.mem level (m.mem t j)).Nodup := by
  induction level generalizing q j t with
  | zero =>
      rw [subtree]
      split <;> simp
  | succ level ih =>
      rw [subtree]
      split
      next hd =>
        have hp : isPresent (m.mem t j) = true := (Bool.and_eq_true_iff.mp hd).1
        have htab := tableAt_snoc_of_present ht hp
        have hlen' : (q ++ [j]).length + level = 3 := by
          simp only [List.length_append, List.length_singleton]
          omega
        have hpos : ∀ k ∈ List.range' 0 entriesPerTable, UserPos (q ++ [j] ++ [k]) := by
          intro k hk
          rw [List.mem_range'_1] at hk
          exact hq.snoc (by omega) (by omega)
        have hinner : (below m.mem level (tableOf (m.mem t j)) 0 entriesPerTable).Nodup :=
          h.below_nodup hs level hlen' htab hpos (fun k hk => ih (hpos k hk) hlen' htab)
        refine List.nodup_append.mpr ⟨hinner, List.nodup_singleton _, ?_⟩
        intro f hf g hg
        rw [List.mem_singleton.mp hg]
        rintro rfl
        obtain ⟨k, hk, hf⟩ := List.mem_flatMap.mp hf
        obtain ⟨r, hr, hfr⟩ := (h.mem_subtree hs level (hpos k hk) hlen' htab _).mp hf
        have heq := (h.unique s hs s hs _ _ hr hq _ hfr htab).2
        have := congrArg List.length heq
        simp only [List.length_append, List.length_cons, List.length_nil] at this
        omega
      next => exact List.nodup_nil

/-- All frames of an address space, in the order in which they are released. -/
def spaceFrames (mem : Nat → Nat → Nat) (s : Nat) : List Nat :=
  below mem 3 s 0 hhdmPml4Index ++ [s]

theorem userPos_singleton {j : Nat} (hj : j < hhdmPml4Index) : UserPos ([] ++ [j]) where
  length_le := by simp
  lt i hi := by
    rw [List.nil_append, List.mem_singleton] at hi
    subst hi
    simp only [hhdmPml4Index, entriesPerTable] at *
    omega
  top i hi := by
    simp only [List.nil_append, List.head?_cons, Option.mem_some_iff] at hi
    omega

theorem Ledger.mem_below_top (h : Ledger m a free) {s : Nat} (hs : s ∈ a.spaces) (f : Nat) :
    f ∈ below m.mem 3 s 0 hhdmPml4Index ↔
      ∃ p, p ≠ [] ∧ UserPos p ∧ tableAt m.mem s p = some f := by
  rw [below, List.mem_flatMap]
  constructor
  · rintro ⟨j, hj, hf⟩
    rw [List.mem_range'_1] at hj
    obtain ⟨r, hr, hfr⟩ :=
      (h.mem_subtree hs 3 (userPos_singleton (by omega)) rfl rfl f).mp hf
    exact ⟨[] ++ j :: r, by simp, hr, hfr⟩
  · rintro ⟨p, hne, hp, hf⟩
    cases p with
    | nil => exact absurd rfl hne
    | cons j r =>
        have hj : j < hhdmPml4Index := hp.top j (by simp)
        refine ⟨j, List.mem_range'_1.mpr ⟨Nat.zero_le _, by omega⟩, ?_⟩
        exact (h.mem_subtree hs 3 (userPos_singleton hj) rfl rfl f).mpr ⟨r, hp, hf⟩

/-- The released frames are the frames at the positions of the address space. -/
theorem Ledger.mem_spaceFrames (h : Ledger m a free) {s : Nat} (hs : s ∈ a.spaces) (f : Nat) :
    f ∈ spaceFrames m.mem s ↔ ∃ p, UserPos p ∧ tableAt m.mem s p = some f := by
  rw [spaceFrames, List.mem_append, List.mem_singleton, h.mem_below_top hs]
  constructor
  · rintro (⟨p, _, hp, hf⟩ | rfl)
    · exact ⟨p, hp, hf⟩
    · exact ⟨[], userPos_nil, rfl⟩
  · rintro ⟨p, hp, hf⟩
    by_cases hnil : p = []
    · subst hnil
      exact Or.inr (Option.some.inj hf).symm
    · exact Or.inl ⟨p, hnil, hp, hf⟩

theorem Ledger.spaceFrames_nodup (h : Ledger m a free) {s : Nat} (hs : s ∈ a.spaces) :
    (spaceFrames m.mem s).Nodup := by
  have hpos : ∀ j ∈ List.range' 0 hhdmPml4Index, UserPos ([] ++ [j]) := by
    intro j hj
    rw [List.mem_range'_1] at hj
    exact userPos_singleton (by omega)
  have hinner : (below m.mem 3 s 0 hhdmPml4Index).Nodup :=
    h.below_nodup hs 3 rfl rfl hpos (fun j hj => h.subtree_nodup hs 3 (hpos j hj) rfl rfl)
  refine List.nodup_append.mpr ⟨hinner, List.nodup_singleton s, ?_⟩
  intro f hf g hg
  rw [List.mem_singleton.mp hg]
  rintro rfl
  obtain ⟨p, hne, hp, hfp⟩ := (h.mem_below_top hs f).mp hf
  exact hne (h.unique f hs f hs p [] hp userPos_nil f hfp rfl).2

/-! ## Releasing them -/

/-- Releasing held frames one after another. -/
theorem Ledger.releaseAll (h : Ledger m a free) {frames : List Nat} (hnodup : frames.Nodup)
    (hheld : ∀ f ∈ frames, f ∈ a.held) :
    Ledger (releaseAll m frames) { a with held := a.held \ frames.toFinset }
        (frames.reverse ++ free) ∧
      SameEntries m (Mm.releaseAll m frames) a.spaces ∧
      Steady m (Mm.releaseAll m frames) a.spaces := by
  induction frames generalizing m a free with
  | nil =>
      refine ⟨?_, fun _ _ _ _ => rfl, Steady.refl m a.spaces⟩
      simpa using h
  | cons f fs ih =>
      obtain ⟨hled, hsame, hsteady⟩ := h.release (hheld f (List.mem_cons_self ..))
      obtain ⟨hnot, hnodup⟩ := List.nodup_cons.mp hnodup
      obtain ⟨hled', hsame', hsteady'⟩ := ih hled hnodup (by
        intro g hg
        refine Finset.mem_erase.mpr ⟨?_, hheld g (List.mem_cons_of_mem f hg)⟩
        rintro rfl
        exact hnot hg)
      have hacc : a.held.erase f \ fs.toFinset = a.held \ (f :: fs).toFinset := by
        ext g
        simp only [Finset.mem_sdiff, Finset.mem_erase, List.toFinset_cons, Finset.mem_insert]
        tauto
      rw [releaseAll_cons, List.reverse_cons, List.append_assoc]
      simp only [hacc] at hled'
      refine ⟨hled', fun s hs p hp => ?_, hsteady.trans hsteady'⟩
      rw [hsame' s hs p hp, hsame s hs p hp]

/-- Destroying an address space puts each of its frames on the free list and
leaves the other address spaces alone. -/
theorem Ledger.pagingAddrspaceDestroy_run (h : Ledger m a free) {s : Nat}
    (hs : s ∈ a.spaces) :
    let m' := Mm.releaseAll m (spaceFrames m.mem s)
    pagingAddrspaceDestroy s m = (.ok (), m') ∧
      Ledger m' { a with spaces := a.spaces.erase s } ((spaceFrames m.mem s).reverse ++ free) ∧
      SameEntries m m' (a.spaces.erase s) ∧ Steady m m' (a.spaces.erase s) := by
  intro m'
  have hnodup := h.spaceFrames_nodup hs
  have hmem := h.mem_spaceFrames hs
  have hframe : ∀ f ∈ spaceFrames m.mem s, Frame f := by
    intro f hf
    obtain ⟨p, hp, hfp⟩ := (hmem f).mp hf
    exact h.frame f (h.owned s hs p hp f hfp).1
  have hclose := h.close hs (fun f => List.mem_toFinset.trans (hmem f))
  obtain ⟨hled, hsame, hsteady⟩ := hclose.releaseAll hnodup
    (fun f hf => Finset.mem_union_right _ (List.mem_toFinset.mpr hf))
  have hacc : (a.held ∪ (spaceFrames m.mem s).toFinset) \ (spaceFrames m.mem s).toFinset =
      a.held := by
    ext f
    simp only [Finset.mem_sdiff, Finset.mem_union, List.mem_toFinset]
    constructor
    · rintro ⟨hf | hf, hnot⟩
      · exact hf
      · exact absurd hf hnot
    · intro hf
      refine ⟨Or.inl hf, fun hcon => ?_⟩
      obtain ⟨p, hp, hfp⟩ := (hmem f).mp hcon
      exact (h.owned s hs p hp f hfp).2.2 hf
  simp only [hacc] at hled
  refine ⟨?_, hled, hsame, hsteady⟩
  have hinner := (List.nodup_append.mp hnodup)
  have hself : s ∉ below m.mem 3 s 0 hhdmPml4Index :=
    fun hcon => hinner.2.2 s hcon s (List.mem_singleton_self s) rfl
  have hrun := eachEntry_run (destroyEntry_run 3) hinner.1 hself
    (fun f hf => hframe f (List.mem_append_left _ hf))
  have hsframe : Frame s := hframe s (by simp [spaceFrames])
  simp only [pagingAddrspaceDestroy, hsframe.ne_zero, if_false, Eff.bind_ok hrun,
    Eff.ignore_run, pfaFree_push hsframe.ne_zero hsframe.aligned]
  simp only [m', spaceFrames, releaseAll_append]
  rfl

end Mm
end Nyxis
