import Nyxis.Mm.Translation

/-!
# What the mapping calls do to data

A mapping call writes page tables and free frames, never a frame that holds data.
So the words of every mapped page survive a call that binds another page, and
those of every page but one survive a call that unbinds it.

The last section is about one address space seen from the others: what happens to
frames that it does not own leaves its own entries and data alone.

Main results:

- Theorem {lit}`Ledger.pagingMapPage_data`: mapping keeps all data.
- Theorem {lit}`Ledger.pagingUnmapFreePage_data`: releasing a page keeps the data of
  the others.
- Theorem {lit}`Ledger.withdraw`: an address space can be taken out of the account.
-/

namespace Nyxis
namespace Mm

variable {m : Memory} {a : Account} {free : List Nat}

/-- Every data frame has the same words in both states. -/
def SameData (m m' : Memory) (a : Account) : Prop :=
  ∀ f, DataFrame m a f → m'.mem f = m.mem f

/-- Equal leaves map the same frames. -/
theorem SameLeaves.dataFrame {m' : Memory} (h : SameLeaves m m' a.spaces) {f : Nat}
    (hf : DataFrame m a f) : DataFrame m' a f := by
  rcases hf with hf | ⟨s, hs, p, hp, hlen, ht⟩
  · exact Or.inl hf
  · have hnil : p ≠ [] := by
      intro hnil
      rw [hnil] at hlen
      cases hlen
    refine Or.inr ⟨s, hs, p, hp, hlen, ?_⟩
    rw [tableAt_of_ne_nil s hnil] at ht ⊢
    rw [h s hs p hp hlen]
    exact ht

theorem SameData.trans {m' m'' : Memory} (h : SameData m m' a) (h' : SameData m' m'' a)
    (hleaves : SameLeaves m m' a.spaces) : SameData m m'' a :=
  fun f hf => (h' f (hleaves.dataFrame hf)).trans (h f hf)

/-- The frame that a bound page maps. -/
theorem tableAt_leafPos {s v e : Nat} (he : entryAt m.mem s (leafPos v) = some e) :
    tableAt m.mem s (leafPos v) = some (tableOf e) := by
  rw [tableAt_of_ne_nil s (by simp [leafPos]), he]
  rfl

/-- The frame that a bound page maps holds data. -/
theorem dataFrame_of_entryAt {s v e : Nat} (hs : s ∈ a.spaces) (hv : v < userSpaceEnd)
    (he : entryAt m.mem s (leafPos v) = some e) : DataFrame m a (tableOf e) :=
  Or.inr ⟨s, hs, leafPos v, userPos_leafPos hv, rfl, tableAt_leafPos he⟩

/-- A data frame is neither free nor a page table. -/
theorem DataFrame.ne_free (h : Ledger m a free) {f g : Nat} (hf : DataFrame m a f)
    (hg : g ∈ free) : f ≠ g := by
  rintro rfl
  rcases hf with hf | ⟨s, hs, p, hp, _, ht⟩
  · exact h.held_free f hf hg
  · exact h.not_tableAt (Or.inl hg) hs hp ht

theorem DataFrame.ne_table (h : Ledger m a free) {f t s : Nat} {q : List Nat}
    (hf : DataFrame m a f) (hs : s ∈ a.spaces) (hq : UserPos q) (hlen : q.length < 4)
    (ht : tableAt m.mem s q = some t) : f ≠ t := by
  rintro rfl
  rcases hf with hf | ⟨s', hs', p, hp, hlen', ht'⟩
  · exact h.not_tableAt (Or.inr hf) hs hq ht
  · obtain ⟨_, rfl⟩ := h.unique s hs s' hs' q p hq hp f ht ht'
    omega

/-! ## Mapping -/

theorem Ledger.nextLevelDyn_data (h : Ledger m a free) {s : Nat} (hs : s ∈ a.spaces)
    {q : List Nat} {i t : Nat} (hq : UserPos (q ++ [i])) (hlen : q.length < 3)
    (ht : tableAt m.mem s q = some t) :
    Eff.Post (nextLevelDyn t i true) m (fun _ m' => SameData m m' a) := by
  cases hpresent : isPresent (m.mem t i) with
  | true =>
      refine Eff.post_of_eq (h.nextLevelDyn_present hs hq hlen ht hpresent true) ?_
      exact fun f _ => rfl
  | false =>
      cases free with
      | nil =>
          have hrun : nextLevelDyn t i true m = (.ok none, m) := by
            simp [nextLevelDyn, hpresent, Eff.bind_ok (allocTableDyn_nil h.allocator)]
          exact Eff.post_of_eq hrun (fun f _ => rfl)
      | cons g fs =>
          have hhead : m.freeHead = g := h.allocator.list.1
          have hrun : nextLevelDyn t i true m =
              (.ok (some g), (popFree m).store t i (tableEntry g)) := by
            simp [nextLevelDyn, hpresent, Eff.bind_ok (allocTableDyn_cons h.allocator), tableEntry]
          refine Eff.post_of_eq hrun (fun f hf => ?_)
          have hfg : f ≠ m.freeHead := by
            rw [hhead]
            exact hf.ne_free h (List.mem_cons_self ..)
          have hft : f ≠ t := hf.ne_table h hs (UserPos.of_snoc q i hq) (by omega) ht
          rw [Memory.store_mem_frame _ hft, popFree_mem_of_ne hfg]

theorem Ledger.walkToTable_data (h : Ledger m a free) {s : Nat} (hs : s ∈ a.spaces)
    {v : Nat} (hv : v < userSpaceEnd) (missing : Nstatus) :
    Eff.Post (walkToTable s v true missing) m (fun _ m' => SameData m m' a) := by
  obtain ⟨hp3, hp2, hp1, _⟩ := userPos_levels hv
  -- each level is followed with its ledger and its data side by side
  have hlevel : ∀ {n : Memory} {fs : List Nat} {q : List Nat} {i t : Nat}, Ledger n a fs →
      UserPos (q ++ [i]) → q.length < 3 → tableAt n.mem s q = some t →
      Eff.Post (nextLevelDyn t i true) n (fun r n' => (Grown n n' a ∧ ∃ u, r = .ok u ∧
        ∀ x, u = some x → tableAt n'.mem s (q ++ [i]) = some x) ∧ SameData n n' a) :=
    fun hn hq hlen ht => Eff.post_and (hn.nextLevelDyn_create hs hq hlen ht)
      (hn.nextLevelDyn_data hs hq hlen ht)
  unfold walkToTable
  refine Eff.post_bind (hlevel h hp3 (by decide) rfl) (fun _ _ hp => hp.2) ?_
  rintro u m1 ⟨⟨hg1, _, ⟨⟩, ht1⟩, hd1⟩
  cases u with
  | none => exact Eff.post_of_eq rfl hd1
  | some pdpt =>
      obtain ⟨free1, hl1⟩ := hg1.ledger
      refine Eff.post_bind (hlevel hl1 hp2 (by simp) (ht1 pdpt rfl))
        (fun _ _ hp => hd1.trans hp.2 hg1.leaves) ?_
      rintro u m2 ⟨⟨hg2, _, ⟨⟩, ht2⟩, hd2⟩
      have hd12 : SameData m m2 a := hd1.trans hd2 hg1.leaves
      cases u with
      | none => exact Eff.post_of_eq rfl hd12
      | some pd =>
          obtain ⟨free2, hl2⟩ := hg2.ledger
          have hg12 := hg1.trans hg2
          refine Eff.post_bind (hlevel hl2 hp1 (by simp) (ht2 pd rfl))
            (fun _ _ hp => hd12.trans hp.2 hg12.leaves) ?_
          rintro u m3 ⟨_, hd3⟩
          have hd : SameData m m3 a := hd12.trans hd3 hg12.leaves
          cases u with
          | none => exact Eff.post_of_eq rfl hd
          | some pt => exact Eff.post_of_eq rfl hd

/-- Mapping a page keeps the words of every data frame, whether it succeeds or
not. -/
theorem Ledger.pagingMapPage_data (h : Ledger m a free) {s : Nat} (hs : s ∈ a.spaces)
    (p v flags : Nat) :
    Eff.Post (pagingMapPage s p v flags) m (fun _ m' => SameData m m' a) := by
  have hstop : ∀ e, Eff.Post (Eff.fail e : MemM Unit) m (fun _ m' => SameData m m' a) :=
    fun e => Eff.post_of_eq rfl (fun f _ => rfl)
  unfold pagingMapPage
  split
  · exact hstop _
  split
  · exact hstop _
  split
  · exact hstop _
  next huser =>
  split
  · exact hstop _
  rw [not_or, not_or, not_le] at huser
  have hv : v < userSpaceEnd := huser.2.2
  refine Eff.post_gets_bind ?_
  dsimp only
  split
  · exact hstop _
  refine Eff.post_bind (Eff.post_and (h.walkToTable_create hs hv .NoutOfMemory)
    (h.walkToTable_data hs hv .NoutOfMemory)) (fun _ _ hp => hp.2) ?_
  rintro pt m' ⟨⟨hg, hr | ⟨_, ⟨⟩, htab⟩⟩, hd⟩
  · cases hr
  refine Eff.post_gets_bind ?_
  split
  · exact Eff.post_of_eq rfl hd
  obtain ⟨free', hled⟩ := hg.ledger
  have hpos : UserPos (ptPos v) := UserPos.of_snoc _ _ (userPos_levels hv).2.2.2
  refine Eff.post_of_eq rfl (fun f hf => ?_)
  have hft : f ≠ pt := (hg.leaves.dataFrame hf).ne_table hled hs hpos (by simp [ptPos]) htab
  rw [Memory.store_mem_frame _ hft, hd f hf]

/-! ## Unmapping -/

theorem Ledger.clearLeaf_data (h : Ledger m a free) {s : Nat} (hs : s ∈ a.spaces) (v : Nat) :
    Eff.Post (clearLeaf s v) m (fun _ m' => SameData m m' a) := by
  have hstop : ∀ e, Eff.Post (Eff.fail e : MemM Nat) m (fun _ m' => SameData m m' a) :=
    fun e => Eff.post_of_eq rfl (fun f _ => rfl)
  unfold clearLeaf
  split
  · exact hstop _
  split
  · exact hstop _
  next hargs =>
  rw [not_or, not_or, not_or, not_not, not_le] at hargs
  have hv : v < userSpaceEnd := hargs.2.2.2
  have hwalk := h.walkToTable_find hs hv .NinvalidArg
  cases htab : tableAt m.mem s (ptPos v) with
  | none =>
      rw [htab] at hwalk
      exact Eff.post_of_eq (Eff.bind_error hwalk) (fun f _ => rfl)
  | some pt =>
      rw [htab] at hwalk
      refine Eff.post_bind_ok hwalk (Eff.post_gets_bind ?_)
      split
      · have hpos : UserPos (ptPos v) := UserPos.of_snoc _ _ (userPos_levels hv).2.2.2
        refine Eff.post_of_eq rfl (fun f hf => ?_)
        exact Memory.store_mem_frame _ (hf.ne_table h hs hpos (by simp [ptPos]) htab)
      · exact hstop _

/-- Unmapping and freeing a page keeps the words of every data frame but the one
that is freed. -/
theorem Ledger.pagingUnmapFreePage_data (h : Ledger m a free) {s : Nat} (hs : s ∈ a.spaces)
    (v : Nat) :
    Eff.Post (pagingUnmapFreePage s v) m (fun _ m' => ∀ f, DataFrame m a f →
      (∀ e, entryAt m.mem s (leafPos v) = some e → f ≠ tableOf e) → m'.mem f = m.mem f) := by
  unfold pagingUnmapFreePage
  refine Eff.post_bind (Eff.post_and (h.clearLeaf_post hs v) (h.clearLeaf_data hs v)) ?_ ?_
  · rintro e m' ⟨_, hd⟩
    exact fun f hf _ => hd f hf
  · rintro e m' ⟨⟨_, ⟨⟩, hun, _, hled⟩ | ⟨_, hcon, _⟩, hd⟩
    swap
    · cases hcon
    have hmem : tableOf e ∈ insert (tableOf e) a.held := Finset.mem_insert_self _ _
    have hframe : Frame (tableOf e) := hled.frame _ (hled.held_boot _ hmem)
    refine Eff.post_of_eq (pfaFree_push hframe.ne_zero hframe.aligned) (fun f hf hne => ?_)
    rw [pushFree_mem_of_ne (hne e hun.bound), hd f hf]

/-! ## One address space among others -/

/-- An address space can be taken out of the account together with its frames.
What then happens to the frames of the smaller account does not reach it. -/
theorem Ledger.withdraw (h : Ledger m a free) {s : Nat} (hs : s ∈ a.spaces) {frames : Finset Nat}
    (hframes : ∀ f, f ∈ frames ↔ ∃ p, UserPos p ∧ tableAt m.mem s p = some f) :
    Ledger m { a with
      boot := a.boot \ frames, base := m.mem, spaces := a.spaces.erase s } free := by
  have hnot : ∀ f, f ∈ free ∨ f ∈ a.held → f ∉ frames := by
    intro f hf hcon
    obtain ⟨p, hp, ht⟩ := (hframes f).mp hcon
    exact h.not_tableAt hf hs hp ht
  have hother : ∀ s' ∈ a.spaces.erase s, ∀ p, UserPos p → ∀ f,
      tableAt m.mem s' p = some f → f ∉ frames := by
    intro s' hs' p hp f ht hcon
    obtain ⟨hne, hs'⟩ := Finset.mem_erase.mp hs'
    obtain ⟨q, hq, htq⟩ := (hframes f).mp hcon
    exact hne (h.unique s' hs' s hs p q hp hq f ht htq).1
  exact {
    allocator := h.allocator
    frame := fun f hf => h.frame f (Finset.mem_sdiff.mp hf).1
    free_boot := fun f hf => Finset.mem_sdiff.mpr ⟨h.free_boot f hf, hnot f (Or.inl hf)⟩
    held_boot := fun f hf => Finset.mem_sdiff.mpr ⟨h.held_boot f hf, hnot f (Or.inr hf)⟩
    held_free := h.held_free
    owned := by
      intro s' hs' p hp f ht
      obtain ⟨h1, h2, h3⟩ := h.owned s' (Finset.mem_of_mem_erase hs') p hp f ht
      exact ⟨Finset.mem_sdiff.mpr ⟨h1, hother s' hs' p hp f ht⟩, h2, h3⟩
    unique := fun s₁ hs₁ s₂ hs₂ =>
      h.unique s₁ (Finset.mem_of_mem_erase hs₁) s₂ (Finset.mem_of_mem_erase hs₂)
    covered := by
      intro f hf
      obtain ⟨hboot, hout⟩ := Finset.mem_sdiff.mp hf
      rcases h.covered f hboot with hf' | hf' | ⟨s', hs', p, hp, ht⟩
      · exact Or.inl hf'
      · exact Or.inr (Or.inl hf')
      · refine Or.inr (Or.inr ⟨s', Finset.mem_erase.mpr ⟨?_, hs'⟩, p, hp, ht⟩)
        rintro rfl
        exact hout ((hframes f).mpr ⟨p, hp, ht⟩)
    tables := fun s' hs' => h.tables s' (Finset.mem_of_mem_erase hs')
    leaves := fun s' hs' => h.leaves s' (Finset.mem_of_mem_erase hs')
    outside := fun _ _ => rfl
    kernel := fun hcon => h.kernel (Finset.mem_sdiff.mp hcon).1
    upper := by
      intro s' hs' i hi
      have hbase : m.mem m.kernelPml4 = a.base m.kernelPml4 := h.outside _ h.kernel
      dsimp only
      rw [hbase]
      exact h.upper s' (Finset.mem_of_mem_erase hs') i hi }

/-- Where the frames of an address space are unchanged, so are its entries. -/
theorem entryAt_of_frames {m' : Memory} {s : Nat}
    (hmem : ∀ p f, UserPos p → tableAt m.mem s p = some f → m'.mem f = m.mem f)
    {p : List Nat} (hp : UserPos p) : entryAt m'.mem s p = entryAt m.mem s p := by
  refine TableTree.entryAt_congr UserPos UserPos.of_snoc ?_ p hp
  intro q i t hq ht
  rw [hmem q t (UserPos.of_snoc q i hq) ht]

end Mm
end Nyxis
