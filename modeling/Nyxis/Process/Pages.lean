import Nyxis.Process.Elf
import Nyxis.Mm.Contents

/-!
# Which pages the loader, the stack and the heap touch

The loops that build and change an address space work on a range of pages.  This
module says for each of them which leaves it may change, and for the loops of the
heap also what becomes of the data: a page outside the range keeps its frame and
its words, a page that is mapped is zero, and a loop that fails half way has undone
what it did.

Main results:

- Theorem {lit}`mapFreshPage_leaf`: one fresh page.
- Theorems {lit}`releasePages_spec` and {lit}`growHeap_spec`: the loops of the heap.
- Theorems {lit}`elfLoad_spec` and {lit}`confined_mapUserStack`: the pages of a
  program lie below the end of its image and at its stack.
-/

namespace Nyxis
namespace Process

open Mm

variable {m : Memory} {a : Account} {free : List Nat} {s : Nat}

/-- The leaf of a page. -/
abbrev leafAt (m : Memory) (s v : Nat) : Option Nat :=
  entryAt m.mem s (leafPos v)

/-- A page is mapped if its leaf is bound. -/
theorem translate_leafAt (h : ∃ free, Ledger m a free) (hs : s ∈ a.spaces) {v : Nat}
    (hv : UserPage v) :
    translate m.mem s v = (leafAt m s v).map (fun e => (tableOf e, flagsOf e)) := by
  obtain ⟨free, hled⟩ := h
  exact hled.translate_user hs hv.1

theorem hasFlag_leafEntry_user (p flags : Nat) :
    hasFlag (leafEntry p flags) pageUser = true := by
  rw [hasFlag_user, leafEntry_eq, Nat.testBit_or, Nat.testBit_or]
  simp [show Nat.testBit 5 2 = true from rfl]

/-! ## One fresh page -/

/-- What mapping a fresh page has done. -/
structure FreshPage (m m' : Memory) (a : Account) (s v flags f : Nat) : Prop where
  ledger : ∃ free, Ledger m' a free
  args : MapArgs m.nxSupported v flags
  frame : Frame f
  unbound : leafAt m s v = none
  leaf : UpdatedLeaf m m' a.spaces s (leafPos v)
    (some (leafEntry f (effectiveFlags m.nxSupported flags)))
  nx : m'.nxSupported = m.nxSupported
  data : SameData m m' a

/-- What a call that could not map a page has left behind. -/
structure Restored (m m' : Memory) (a : Account) : Prop where
  ledger : ∃ free, Ledger m' a free
  leaves : SameLeaves m m' a.spaces
  nx : m'.nxSupported = m.nxSupported
  data : SameData m m' a

/-- Filling and mapping a held frame binds it or changes no leaf, and writes no data
but that of the frame itself. -/
theorem fillAndMap_leaf (h : Ledger m a free) (hs : s ∈ a.spaces) {f : Nat} (hf : f ∈ a.held)
    (v flags : Nat) {fill : Nat → MemM Unit} (hfill : Fills fill) :
    Eff.Post (do fill f; pagingMapPage s f v flags) m (fun r m' =>
      ((r = .ok () ∧ Mapped m m' a s f v flags) ∨ (∃ e, r = .error e ∧ Grown m m' a)) ∧
      (∀ g, DataFrame m a g → g ≠ f → m'.mem g = m.mem g) ∧
      (fill f = pure () → m'.mem f = m.mem f)) := by
  obtain ⟨r, words, hrun⟩ := hfill f m
  obtain ⟨hled, hsame, hsteady⟩ := h.scribble (Or.inl hf) words
  obtain ⟨m₁, hm₁⟩ : ∃ m₁ : Memory, m₁ = { m with mem := Function.update m.mem f words } :=
    ⟨_, rfl⟩
  rw [← hm₁] at hrun
  simp only [← hm₁] at hled hsame hsteady
  have hother : ∀ g, g ≠ f → m₁.mem g = m.mem g := by
    intro g hg
    rw [hm₁]
    exact Function.update_of_ne hg words m.mem
  have hself : fill f = pure () → m₁.mem f = m.mem f := by
    intro hpure
    rw [hpure] at hrun
    cases hrun
    rfl
  have hgrown : Grown m m₁ a := by
    refine ⟨⟨free, hled⟩, hsame.leaves, hsteady, fun t ht p hp u hu => ?_⟩
    rw [hsame.tableAt ht hp]
    exact hu
  cases r with
  | error e =>
      refine Eff.post_bind_error hrun ⟨Or.inr ⟨e, rfl, hgrown⟩, fun g _ => hother g, hself⟩
  | ok u =>
      refine Eff.post_bind_ok hrun (Eff.post_mono (Eff.post_and
        (hled.pagingMapPage_post hs hf v flags) (hled.pagingMapPage_data hs f v flags)) ?_)
      rintro r m' ⟨hr, hd⟩
      refine ⟨?_, ?_, ?_⟩
      · rcases hr with ⟨rfl, hm⟩ | ⟨e, rfl, hg⟩
        · refine Or.inl ⟨rfl, ?_⟩
          have hargs := hm.args
          have hleaf := hm.leaf
          rw [hsteady.nx] at hargs hleaf
          exact {
            args := hargs
            unbound := by
              rw [← hsame s hs _ (userPos_leafPos hargs.user)]
              exact hm.unbound
            ledger := hm.ledger
            leaf := hsame.leaves.updated hleaf
            steady := hsteady.trans hm.steady }
        · exact Or.inr ⟨e, rfl, hgrown.trans hg⟩
      · intro g hg hgf
        rw [hd g (hsame.leaves.dataFrame hg), hother g hgf]
      · intro hpure
        rw [hd f (Or.inl hf), hself hpure]

/-- Mapping a fresh page binds one leaf and keeps all data, or changes no leaf.  A
page that is not filled reads as zero. -/
theorem mapFreshPage_leaf (h : Ledger m a free) (hs : s ∈ a.spaces) (v flags : Nat)
    {fill : Nat → MemM Unit} (hfill : Fills fill) :
    Eff.Post (mapFreshPage s v flags fill) m (fun r m' =>
      (∃ f, r = .ok f ∧ FreshPage m m' a s v flags f ∧
        (fill f = pure () → ∀ i, m'.mem f i = 0)) ∨
      (∃ e, r = .error e ∧ Restored m m' a)) := by
  unfold mapFreshPage
  cases free with
  | nil =>
      refine Eff.post_bind_error (pfaAlloc_nil h.allocator) (Or.inr ⟨_, rfl, ?_⟩)
      exact ⟨⟨[], h⟩, fun _ _ _ _ _ => rfl, rfl, fun _ _ => rfl⟩
  | cons f fs =>
      obtain ⟨hled, hsame, hsteady⟩ := h.alloc
      have hf : f ∈ insert f a.held := Finset.mem_insert_self f a.held
      have hnot : f ∉ a.held := fun hcon => h.held_free f hcon (List.mem_cons_self ..)
      have hacc : (insert f a.held).erase f = a.held := Finset.erase_insert hnot
      have hframe : Frame f := h.frame f (h.free_boot f (List.mem_cons_self ..))
      have hhead : m.freeHead = f := h.allocator.list.1
      have hpop : ∀ g, DataFrame m a g → g ≠ f ∧ (popFree m).mem g = m.mem g ∧
          DataFrame (popFree m) { a with held := insert f a.held } g := by
        intro g hg
        have hgf : g ≠ f := hg.ne_free h (List.mem_cons_self ..)
        refine ⟨hgf, popFree_mem_of_ne (by rw [hhead]; exact hgf), ?_⟩
        exact (hsame.leaves.dataFrame hg).imp_left Finset.mem_insert_of_mem
      refine Eff.post_bind_ok (pfaAlloc_cons h.allocator) ?_
      refine Eff.post_attempt_bind (fillAndMap_leaf hled hs hf v flags hfill) ?_
      rintro r m₂ ⟨⟨rfl, hm⟩ | ⟨e, rfl, hg⟩, hd, hpure⟩
      · obtain ⟨fs₂, hled₂⟩ := hm.ledger
        simp only [hacc] at hled₂
        refine Eff.post_of_eq rfl (Or.inl ⟨f, rfl, ?_, ?_⟩)
        · exact {
            ledger := ⟨fs₂, hled₂⟩
            args := hm.args
            frame := hframe
            unbound := (hsame s hs _ (userPos_leafPos hm.args.user)).symm.trans hm.unbound
            leaf := hsame.leaves.updated hm.leaf
            nx := hm.steady.nx
            data := by
              intro g hg
              obtain ⟨hgf, hword, hg'⟩ := hpop g hg
              rw [hd g hg' hgf, hword] }
        · intro hnop i
          rw [hpure hnop, ← hhead]
          exact popFree_mem_head m i
      · -- the frame is still held and goes back
        obtain ⟨fs₂, hled₂⟩ := hg.ledger
        obtain ⟨hled₃, hsame₃, _⟩ := hled₂.release hf
        simp only [hacc] at hled₃
        have hundo : (do Eff.ignore (pfaFree f); Eff.fail e : MemM Nat) m₂ =
            (.error e, pushFree m₂ f) := by
          rw [Eff.ignore_bind_run, pfaFree_push hframe.ne_zero hframe.aligned]
          rfl
        refine Eff.post_of_eq hundo (Or.inr ⟨e, rfl, ?_⟩)
        exact {
          ledger := ⟨_, hled₃⟩
          leaves := (hsame.leaves.trans hg.leaves).trans hsame₃.leaves
          nx := hg.steady.nx
          data := by
            intro g hg'
            obtain ⟨hgf, hword, hg''⟩ := hpop g hg'
            rw [pushFree_mem_of_ne hgf, hd g hg'' hgf, hword] }

/-! ## Ranges of pages -/

/-- Pages outside a range keep their leaves and the words of their frames. -/
structure Spared (m m' : Memory) (a : Account) (s : Nat) (P : Nat → Prop) : Prop where
  ledger : ∃ free, Ledger m' a free
  nx : m'.nxSupported = m.nxSupported
  leaves : ∀ v, UserPage v → ¬ P v → leafAt m' s v = leafAt m s v
  data : ∀ v, UserPage v → ¬ P v → ∀ e, leafAt m s v = some e →
    m'.mem (tableOf e) = m.mem (tableOf e)

theorem Spared.refl (h : Ledger m a free) (P : Nat → Prop) : Spared m m a s P :=
  ⟨⟨free, h⟩, rfl, fun _ _ _ => rfl, fun _ _ _ _ _ => rfl⟩

theorem Spared.mono {m' : Memory} {P Q : Nat → Prop} (h : Spared m m' a s P)
    (hPQ : ∀ v, UserPage v → P v → Q v) : Spared m m' a s Q where
  ledger := h.ledger
  nx := h.nx
  leaves v hv hQ := h.leaves v hv (fun hP => hQ (hPQ v hv hP))
  data v hv hQ := h.data v hv (fun hP => hQ (hPQ v hv hP))

theorem Spared.trans {m' m'' : Memory} {P : Nat → Prop} (h : Spared m m' a s P)
    (h' : Spared m' m'' a s P) : Spared m m'' a s P where
  ledger := h'.ledger
  nx := h'.nx.trans h.nx
  leaves v hv hP := (h'.leaves v hv hP).trans (h.leaves v hv hP)
  data v hv hP e he := by
    have he' : leafAt m' s v = some e := (h.leaves v hv hP).trans he
    rw [h'.data v hv hP e he', h.data v hv hP e he]

/-- A changed leaf is the leaf of one page. -/
theorem leafAt_updated {m' : Memory} {w : Nat} {e : Option Nat} (hs : s ∈ a.spaces)
    (hw : UserPage w) (h : UpdatedLeaf m m' a.spaces s (leafPos w) e) {v : Nat}
    (hv : UserPage v) : leafAt m' s v = if v = w then e else leafAt m s v := by
  have hupd := h s hs (leafPos v) (userPos_leafPos hv.1) rfl
  rw [leafAt, hupd]
  by_cases hvw : v = w
  · rw [if_pos ⟨rfl, by rw [hvw]⟩, if_pos hvw]
  · rw [if_neg, if_neg hvw]
    rintro ⟨_, hcon⟩
    exact hvw (leafPos_inj hv.1 hw.1 hv.2 hw.2 hcon)

theorem FreshPage.userPage {m' : Memory} {v flags f : Nat} (h : FreshPage m m' a s v flags f) :
    UserPage v :=
  ⟨h.args.user, h.args.aligned⟩

theorem FreshPage.leafAt_eq {m' : Memory} {v flags f : Nat} (hs : s ∈ a.spaces)
    (h : FreshPage m m' a s v flags f) :
    leafAt m' s v = some (leafEntry f (effectiveFlags m.nxSupported flags)) := by
  rw [leafAt_updated hs h.userPage h.leaf h.userPage, if_pos rfl]

theorem FreshPage.spared {m' : Memory} {v flags f : Nat} (hs : s ∈ a.spaces)
    (h : FreshPage m m' a s v flags f) : Spared m m' a s (fun w => w = v) where
  ledger := h.ledger
  nx := h.nx
  leaves w hw hne := by rw [leafAt_updated hs h.userPage h.leaf hw, if_neg hne]
  data w hw _ e he := h.data _ (dataFrame_of_entryAt hs hw.1 he)

theorem Restored.spared {m' : Memory} (hs : s ∈ a.spaces) (h : Restored m m' a)
    (P : Nat → Prop) : Spared m m' a s P where
  ledger := h.ledger
  nx := h.nx
  leaves _ hv _ := h.leaves s hs _ (userPos_leafPos hv.1) rfl
  data _ hv _ _ he := h.data _ (dataFrame_of_entryAt hs hv.1 he)

/-! ## The loops of the heap -/

/-- The pages of a range. -/
def Within (lo hi v : Nat) : Prop :=
  lo ≤ v ∧ v < hi

/-- A page in the first page of a range is its first page. -/
theorem eq_of_within_page {v page : Nat} (hv : UserPage v) (hpage : page % pageSize = 0)
    (h : Within page (page + pageSize) v) : v = page := by
  have hv' := hv.2
  obtain ⟨hlo, hhi⟩ := h
  simp only [pageSize] at *
  omega

/-- Releasing a page leaves it unbound and spares the others. -/
theorem unmapFree_spec (h : Ledger m a free) (hs : s ∈ a.spaces) {v : Nat} (hv : UserPage v)
    (hv0 : v ≠ 0) :
    Eff.Post (pagingUnmapFreePage s v) m (fun _ m' =>
      Spared m m' a s (fun w => w = v) ∧ leafAt m' s v = none) := by
  refine Eff.post_mono (Eff.post_and (h.pagingUnmapFreePage_post hs v)
    (h.pagingUnmapFreePage_data hs v)) ?_
  rintro r m' ⟨⟨e, rfl, hun, hled⟩ | ⟨e, rfl, rfl, hun⟩, hd⟩
  · refine ⟨⟨⟨_, hled⟩, hun.steady.nx, ?_, ?_⟩, ?_⟩
    · intro w hw hne
      rw [leafAt_updated hs hv hun.leaf hw, if_neg hne]
    · intro w hw hne e' he'
      refine hd _ (dataFrame_of_entryAt hs hw.1 he') (fun e'' he'' heq => hne ?_)
      -- two pages that map one frame are one page
      have hpos := h.unique s hs s hs _ _ (userPos_leafPos hw.1) (userPos_leafPos hv.1)
        (tableOf e') (tableAt_leafPos he') (heq ▸ tableAt_leafPos he'')
      exact leafPos_inj hw.1 hv.1 hw.2 hv.2 hpos.2
    · rw [leafAt_updated hs hv hun.leaf hv, if_pos rfl]
  · exact ⟨Spared.refl h _, hun hv0 hv.2 hv.1⟩

/-- Releasing a range of pages leaves all of them unbound and spares the others. -/
theorem releasePages_spec (h : Ledger m a free) (hs : s ∈ a.spaces) (n : Nat) {page : Nat}
    (halign : page % pageSize = 0) (hpos : 0 < page) (hend : page + n * pageSize ≤ userSpaceEnd) :
    Eff.Post (releasePages s n page) m (fun r m' => r = .ok () ∧
      Spared m m' a s (Within page (page + n * pageSize)) ∧
      ∀ v, UserPage v → Within page (page + n * pageSize) v → leafAt m' s v = none) := by
  induction n generalizing m free page with
  | zero =>
      refine Eff.post_of_eq rfl ⟨rfl, Spared.refl h _, ?_⟩
      intro v _ hv
      have := hv.1
      have := hv.2
      omega
  | succ n ih =>
      have hmul : (n + 1) * pageSize = pageSize + n * pageSize := by ring
      rw [hmul, ← Nat.add_assoc] at hend ⊢
      have hpage : UserPage page := by
        refine ⟨?_, halign⟩
        simp only [pageSize] at hend
        omega
      refine Eff.post_ignore_bind (unmapFree_spec h hs hpage (by omega)) ?_
      rintro _ m₁ ⟨hsp, hnone⟩
      obtain ⟨free₁, hled⟩ := hsp.ledger
      have halign' : (page + pageSize) % pageSize = 0 := by
        rw [Nat.add_mod_right]
        exact halign
      refine Eff.post_mono (ih hled halign' (by omega) hend) ?_
      rintro r m₂ ⟨rfl, hsp₂, hnone₂⟩
      have hsub : ∀ v, UserPage v → Within (page + pageSize) (page + pageSize + n * pageSize) v →
          Within page (page + pageSize + n * pageSize) v :=
        fun v _ hv => ⟨by have := hv.1; omega, hv.2⟩
      have hfirst : ∀ v, UserPage v → v = page →
          Within page (page + pageSize + n * pageSize) v := by
        intro v _ hv
        simp only [Within, pageSize]
        omega
      refine ⟨rfl, (hsp.mono hfirst).trans (hsp₂.mono hsub), ?_⟩
      intro v hv hin
      by_cases hnext : page + pageSize ≤ v
      · exact hnone₂ v hv ⟨hnext, hin.2⟩
      · have hvp : v = page := eq_of_within_page hv halign ⟨hin.1, by omega⟩
        rw [hsp₂.leaves v hv (fun hcon => hnext hcon.1), hvp]
        exact hnone

/-- The pages of a range have been mapped: they were unbound, are writable data pages
now and read as zero. -/
structure Grew (m₀ m : Memory) (a : Account) (s lo hi : Nat) : Prop where
  spared : Spared m₀ m a s (Within lo hi)
  unbound : ∀ v, UserPage v → Within lo hi v → leafAt m₀ s v = none
  fresh : ∀ v, UserPage v → Within lo hi v → ∃ f, Frame f ∧
    leafAt m s v = some (leafEntry f (effectiveFlags m₀.nxSupported dataFlags)) ∧
    ∀ i, m.mem f i = 0

theorem Grew.refl (h : Ledger m a free) (page : Nat) : Grew m m a s page page where
  spared := Spared.refl h _
  unbound v _ hv := by
    have := hv.1
    have := hv.2
    omega
  fresh v _ hv := by
    have := hv.1
    have := hv.2
    omega

/-- A page that is spared stays as it has been mapped. -/
theorem Grew.fresh_of_spared {m₀ m' : Memory} {lo hi : Nat} {P : Nat → Prop}
    (h : Grew m₀ m a s lo hi) (hsp : Spared m m' a s P) {v : Nat} (hv : UserPage v)
    (hin : Within lo hi v) (hP : ¬ P v) : ∃ f, Frame f ∧
      leafAt m' s v = some (leafEntry f (effectiveFlags m₀.nxSupported dataFlags)) ∧
      ∀ i, m'.mem f i = 0 := by
  obtain ⟨f, hframe, hleaf, hzero⟩ := h.fresh v hv hin
  refine ⟨f, hframe, (hsp.leaves v hv hP).trans hleaf, fun i => ?_⟩
  have hd := hsp.data v hv hP _ hleaf
  rw [tableOf_leafEntry hframe] at hd
  rw [hd]
  exact hzero i

/-- One more page. -/
theorem Grew.next {m₀ m' : Memory} {lo page f : Nat} (h : Grew m₀ m a s lo page)
    (hs : s ∈ a.spaces) (hlo : lo ≤ page) (hfresh : FreshPage m m' a s page dataFlags f)
    (hzero : ∀ i, m'.mem f i = 0) : Grew m₀ m' a s lo (page + pageSize) := by
  have hpage := hfresh.userPage
  have hout : ¬ Within lo page page := fun hcon => Nat.lt_irrefl _ hcon.2
  have hcases : ∀ v, UserPage v → Within lo (page + pageSize) v → v ≠ page →
      Within lo page v := by
    intro v hv hin hne
    refine ⟨hin.1, ?_⟩
    by_contra hcon
    exact hne (eq_of_within_page hv hpage.2 ⟨by omega, hin.2⟩)
  refine ⟨?_, ?_, ?_⟩
  · refine (h.spared.mono ?_).trans ((hfresh.spared hs).mono ?_)
    · intro v _ hin
      exact ⟨hin.1, by have := hin.2; omega⟩
    · intro v _ hvp
      simp only [Within, pageSize]
      omega
  · intro v hv hin
    by_cases hvp : v = page
    · rw [hvp, ← h.spared.leaves page hpage hout]
      exact hfresh.unbound
    · exact h.unbound v hv (hcases v hv hin hvp)
  · intro v hv hin
    by_cases hvp : v = page
    · refine ⟨f, hfresh.frame, ?_, hzero⟩
      rw [hvp, ← h.spared.nx]
      exact hfresh.leafAt_eq hs
    · exact h.fresh_of_spared (hfresh.spared hs) hv (hcases v hv hin hvp) hvp

/-- Number of pages of a range whose ends are aligned. -/
theorem pageCount_mul {first last : Nat} (hfirst : first % pageSize = 0)
    (hlast : last % pageSize = 0) (hle : first ≤ last) :
    first + pageCount first last * pageSize = last := by
  simp only [pageCount, pageSize] at *
  omega

/-- Giving back the pages of a range that was unbound before restores every leaf. -/
theorem Grew.rollback {m₀ : Memory} {lo hi : Nat} (h : Grew m₀ m a s lo hi)
    (hs : s ∈ a.spaces) (halign : lo % pageSize = 0) (halign' : hi % pageSize = 0)
    (hpos : 0 < lo) (hle : lo ≤ hi) (hend : hi ≤ userSpaceEnd) :
    Eff.Post (releasePages s (pageCount lo hi) lo) m (fun r m' => r = .ok () ∧
      Spared m₀ m' a s (fun _ => False)) := by
  obtain ⟨free, hled⟩ := h.spared.ledger
  have hcount := pageCount_mul halign halign' hle
  refine Eff.post_mono (releasePages_spec hled hs (pageCount lo hi) halign hpos
    (by rw [hcount]; exact hend)) ?_
  rw [hcount]
  rintro r m' ⟨rfl, hsp, hnone⟩
  have hall := h.spared.trans hsp
  refine ⟨rfl, hall.ledger, hall.nx, ?_, ?_⟩
  · intro v hv _
    by_cases hin : Within lo hi v
    · rw [hnone v hv hin, h.unbound v hv hin]
    · exact hall.leaves v hv hin
  · intro v hv _ e he
    have hin : ¬ Within lo hi v := by
      intro hin
      rw [h.unbound v hv hin] at he
      cases he
    exact hall.data v hv hin e he

/-- The growing loop maps all its pages, or fails and has restored every leaf and
all data. -/
theorem growHeap_spec {m₀ : Memory} (hs : s ∈ a.spaces) {first : Nat}
    (halign : first % pageSize = 0) (hpos : 0 < first) (n : Nat) {page : Nat}
    (h : Grew m₀ m a s first page) (hle : first ≤ page) (halign' : page % pageSize = 0)
    (hend : page + n * pageSize ≤ userSpaceEnd) :
    Eff.Post (growHeap s first n page) m (fun r m' =>
      (r = .ok () ∧ Grew m₀ m' a s first (page + n * pageSize)) ∨
      (∃ e, r = .error e ∧ Spared m₀ m' a s (fun _ => False))) := by
  induction n generalizing m page with
  | zero => exact Eff.post_of_eq rfl (Or.inl ⟨rfl, by simpa using h⟩)
  | succ n ih =>
      have hmul : (n + 1) * pageSize = pageSize + n * pageSize := by ring
      rw [hmul, ← Nat.add_assoc] at hend ⊢
      obtain ⟨free, hled⟩ := h.spared.ledger
      refine Eff.post_attempt_bind (mapFreshPage_leaf hled hs page dataFlags fills_pure) ?_
      rintro r m₁ (⟨f, rfl, hfresh, hzero⟩ | ⟨e, rfl, hres⟩)
      · have hnext := h.next hs hle hfresh (hzero rfl)
        refine ih hnext (by omega) ?_ hend
        rw [Nat.add_mod_right]
        exact halign'
      · have hsp : Spared m m₁ a s (fun _ => False) := hres.spared hs _
        have hgrew : Grew m₀ m₁ a s first page := by
          refine ⟨h.spared.trans (hsp.mono (fun _ _ hcon => hcon.elim)), h.unbound, ?_⟩
          intro v hv hin
          exact h.fresh_of_spared hsp hv hin id
        refine Eff.post_bind (hgrew.rollback hs halign halign' hpos hle (by omega)) ?_ ?_
        · rintro e' m₂ ⟨hcon, _⟩
          cases hcon
        · rintro _ m₂ ⟨_, hback⟩
          exact Eff.post_of_eq rfl (Or.inr ⟨e, rfl, hback⟩)

/-! ## The loader and the stack -/

/-- A computation that may change the leaves of the given pages only. -/
def Confined (a : Account) (s : Nat) (P : Nat → Prop) {α : Type} (c : MemM α) : Prop :=
  ∀ m free, Ledger m a free → Eff.Post c m (fun _ m' => (∃ free', Ledger m' a free') ∧
    ∀ v, UserPage v → ¬ P v → leafAt m' s v = leafAt m s v)

variable {P : Nat → Prop}

theorem Confined.pure {α : Type} (x : α) : Confined a s P (pure x : MemM α) :=
  fun _ _ h => Eff.post_of_eq rfl ⟨⟨_, h⟩, fun _ _ _ => rfl⟩

theorem Confined.bind {α β : Type} {c : MemM α} {f : α → MemM β} (hc : Confined a s P c)
    (hf : ∀ x, Confined a s P (f x)) : Confined a s P (c >>= f) := by
  intro m free h
  refine Eff.post_bind (hc m free h) (fun _ _ hp => hp) ?_
  rintro x m' ⟨⟨free', hled⟩, hleaves⟩
  refine Eff.post_mono (hf x m' free' hled) ?_
  rintro _ m'' ⟨hled', hleaves'⟩
  exact ⟨hled', fun v hv hP => (hleaves' v hv hP).trans (hleaves v hv hP)⟩

theorem Confined.mono {Q : Nat → Prop} {α : Type} {c : MemM α} (hc : Confined a s P c)
    (hPQ : ∀ v, UserPage v → P v → Q v) : Confined a s Q c := by
  intro m free h
  refine Eff.post_mono (hc m free h) ?_
  rintro _ m' ⟨hled, hleaves⟩
  exact ⟨hled, fun v hv hQ => hleaves v hv (fun hP => hQ (hPQ v hv hP))⟩

theorem confined_mapFreshPage (hs : s ∈ a.spaces) (v flags : Nat) {fill : Nat → MemM Unit}
    (hfill : Fills fill) : Confined a s (fun w => w = v) (mapFreshPage s v flags fill) := by
  intro m free h
  refine Eff.post_mono (mapFreshPage_leaf h hs v flags hfill) ?_
  rintro r m' (⟨f, rfl, hfresh, _⟩ | ⟨e, rfl, hres⟩)
  · exact ⟨hfresh.ledger, (hfresh.spared hs).leaves⟩
  · exact ⟨hres.ledger, (hres.spared hs _).leaves⟩

/-- A range of pages is its first page and the rest. -/
theorem within_succ {page n v : Nat} (h : v = page ∨
    Within (page + pageSize) (page + pageSize + n * pageSize) v) :
    Within page (page + (n + 1) * pageSize) v := by
  have hmul : (n + 1) * pageSize = pageSize + n * pageSize := by ring
  have hpage : 0 < pageSize := by decide
  rw [hmul]
  rcases h with h | h
  · exact ⟨by omega, by omega⟩
  · have := h.1
    have := h.2
    exact ⟨by omega, by omega⟩

theorem confined_loadPages (hs : s ∈ a.spaces) (file : FileView) (ph : ElfPhdr) (n page : Nat) :
    Confined a s (Within page (page + n * pageSize)) (loadPages file s ph n page) := by
  induction n generalizing page with
  | zero => exact Confined.pure ()
  | succ n ih =>
      refine Confined.bind ?_ (fun _ => ?_)
      · exact (confined_mapFreshPage hs page (segmentFlags ph)
          (fills_fillPage file ph page)).mono (fun v _ hv => within_succ (Or.inl hv))
      · exact (ih (page + pageSize)).mono (fun v _ hv => within_succ (Or.inr hv))

theorem confined_stackPages (hs : s ∈ a.spaces) (n page topPhys : Nat) :
    Confined a s (Within page (page + n * pageSize)) (stackPages s n page topPhys) := by
  induction n generalizing page topPhys with
  | zero => exact Confined.pure topPhys
  | succ n ih =>
      refine Confined.bind ?_ (fun _ => ?_)
      · exact (confined_mapFreshPage hs page dataFlags fills_pure).mono
          (fun v _ hv => within_succ (Or.inl hv))
      · exact (ih (page + pageSize) _).mono (fun v _ hv => within_succ (Or.inr hv))

/-- Mapping the stack changes no page below it. -/
theorem confined_mapUserStack (hs : s ∈ a.spaces) :
    Confined a s (fun v => userStackBase ≤ v) (mapUserStack s) := by
  intro m free h
  have hcount : pageCount userStackBase userStackTop = 15 + 1 := by decide
  have hstack := confined_stackPages hs (15 + 1) userStackBase 0 m free h
  refine Eff.post_bind (Eff.post_and (stackPages_post h hs 15 userStackBase 0 (by decide))
    hstack) ?_ ?_
  · rintro e m' ⟨_, hled, hleaves⟩
    exact ⟨hled, fun v hv hlow => hleaves v hv (fun hcon => hlow hcon.1)⟩
  · rintro top m' ⟨⟨_, hmapped⟩, ⟨free', hled⟩, hleaves⟩
    obtain ⟨hled', hsame, _⟩ := hled.scribble (Or.inr (hmapped top rfl)) _
    refine Eff.post_of_eq rfl ⟨⟨free', hled'⟩, fun v hv hlow => ?_⟩
    exact (hsame s hs _ (userPos_leafPos hv.1)).trans
      (hleaves v hv (fun hcon => hlow hcon.1))

/-! ## The end of the image -/

/-- What the checks of the loader leave of a loadable segment. -/
structure SegmentOk (imageEnd : Nat) (ph : ElfPhdr) : Prop where
  aligned : ph.vaddr % pageSize = 0
  lower : userElfMinVaddr ≤ ph.vaddr
  upper : ph.vaddr + ph.memsz ≤ userElfMaxVaddr
  below : alignUp (ph.vaddr + ph.memsz) pageSize ≤ imageEnd

/-- The end of the image found so far is the end of a page of the range for images. -/
structure ImageOk (info : ImageInfo) : Prop where
  aligned : info.imageEnd % pageSize = 0
  upper : info.imageEnd ≤ userElfMaxVaddr
  lower : info.anyLoad = true → userElfMinVaddr ≤ info.imageEnd

/-- Rounding up to a page, where nothing overflows. -/
theorem alignUp_spec {v : Nat} (hv : v < 2 ^ 63) :
    v ≤ alignUp v pageSize ∧ alignUp v pageSize < v + pageSize ∧
      alignUp v pageSize % pageSize = 0 := by
  simp only [alignUp, pageSize]
  omega

theorem alignUp_of_aligned {v : Nat} (hv : v < 2 ^ 63) (halign : v % pageSize = 0) :
    alignUp v pageSize = v := by
  simp only [alignUp, pageSize] at *
  omega

theorem alignUp_mono {v w : Nat} (hvw : v ≤ w) (hw : w < 2 ^ 63) :
    alignUp v pageSize ≤ alignUp w pageSize := by
  simp only [alignUp, pageSize] at *
  omega

theorem checkSegment_spec {fileSize entry : Nat} {info info' : ImageInfo} {ph : ElfPhdr}
    (h : checkSegment fileSize entry info ph = .ok info') :
    info.imageEnd ≤ info'.imageEnd ∧ (ImageOk info → ImageOk info') ∧
      (ph.type = ptLoad → SegmentOk info'.imageEnd ph) := by
  unfold checkSegment at h
  split at h
  next htype =>
    cases h
    exact ⟨Nat.le_refl _, id, fun hcon => absurd hcon htype⟩
  split at h
  · cases h
  split at h
  · cases h
  split at h
  · cases h
  next halign =>
  split at h
  · cases h
  next hrange =>
  split at h
  · cases h
  next hsize =>
  cases h
  rw [not_not] at halign
  rw [not_or, not_lt] at hrange
  have hmax : userElfMaxVaddr = 0x0000700000000000 := rfl
  have hmin : userElfMinVaddr = 0x10000 := rfl
  have hpage : pageSize = 4096 := rfl
  obtain ⟨hle, hlt, hmod⟩ := alignUp_spec (v := ph.vaddr + ph.memsz) (by omega)
  refine ⟨Nat.le_max_left _ _, ?_, ?_⟩
  · intro hok
    have hup : alignUp (ph.vaddr + ph.memsz) pageSize ≤ userElfMaxVaddr := by
      rw [hpage] at hle hlt hmod ⊢
      omega
    refine ⟨?_, ?_, ?_⟩
    · dsimp only
      rcases Nat.le_total info.imageEnd (alignUp (ph.vaddr + ph.memsz) pageSize) with hcmp | hcmp
      · rw [Nat.max_eq_right hcmp]
        exact hmod
      · rw [Nat.max_eq_left hcmp]
        exact hok.aligned
    · exact Nat.max_le.mpr ⟨hok.upper, hup⟩
    · intro _
      exact Nat.le_trans hrange.1 (Nat.le_trans (by omega) (Nat.le_max_right _ _))
  · intro _
    exact ⟨halign, hrange.1, by omega, Nat.le_max_right _ _⟩

theorem SegmentOk.mono {e e' : Nat} {ph : ElfPhdr} (h : SegmentOk e ph) (he : e ≤ e') :
    SegmentOk e' ph :=
  { h with below := Nat.le_trans h.below he }

theorem checkSegments_spec {fileSize entry : Nat} (phs : List ElfPhdr) {info info' : ImageInfo}
    (h : phs.foldlM (checkSegment fileSize entry) info = .ok info') :
    info.imageEnd ≤ info'.imageEnd ∧ (ImageOk info → ImageOk info') ∧
      ∀ ph ∈ phs, ph.type = ptLoad → SegmentOk info'.imageEnd ph := by
  induction phs generalizing info with
  | nil =>
      cases h
      exact ⟨Nat.le_refl _, id, by simp⟩
  | cons ph phs ih =>
      rw [List.foldlM_cons] at h
      cases hfirst : checkSegment fileSize entry info ph with
      | error e =>
          rw [hfirst] at h
          cases h
      | ok info₁ =>
          rw [hfirst] at h
          obtain ⟨hle, hok, hseg⟩ := checkSegment_spec hfirst
          obtain ⟨hle', hok', hseg'⟩ := ih h
          refine ⟨Nat.le_trans hle hle', fun hi => hok' (hok hi), ?_⟩
          intro q hq htype
          rcases List.mem_cons.mp hq with rfl | hq
          · exact (hseg htype).mono hle'
          · exact hseg' q hq htype

/-- What the loader has found out about a file it accepts. -/
theorem readImage_spec {file : FileView} {phdrs : List ElfPhdr} {entry imageEnd : Nat}
    (h : readImage file = .ok (phdrs, entry, imageEnd)) :
    imageEnd % pageSize = 0 ∧ userElfMinVaddr ≤ imageEnd ∧ imageEnd ≤ userElfMaxVaddr ∧
      ∀ ph ∈ phdrs, ph.type = ptLoad → SegmentOk imageEnd ph := by
  unfold readImage at h
  simp only [bind, Except.bind, pure, Except.pure, throw, throwThe,
    MonadExceptOf.throw] at h
  repeat' split at h
  all_goals first | (cases h; done) | skip
  next _ info hfold hload =>
  cases h
  obtain ⟨_, hok, hseg⟩ := checkSegments_spec _ hfold
  have himage := hok ⟨rfl, by decide, by simp⟩
  simp only [Bool.or_eq_true, not_or, Bool.not_eq_eq_eq_not] at hload
  exact ⟨himage.aligned, himage.lower (by simpa using hload.1), himage.upper, hseg⟩

theorem confined_loadSegments (hs : s ∈ a.spaces) (file : FileView) {imageEnd : Nat}
    (phs : List ElfPhdr) (hseg : ∀ ph ∈ phs, ph.type = ptLoad → SegmentOk imageEnd ph) :
    Confined a s (fun v => v < imageEnd) (loadSegments file s phs) := by
  induction phs with
  | nil => exact Confined.pure ()
  | cons ph phs ih =>
      have hrest := ih (fun q hq => hseg q (List.mem_cons_of_mem ph hq))
      unfold loadSegments
      split
      next htype =>
        have hok := hseg ph (List.mem_cons_self ..) htype
        have hmax : userElfMaxVaddr = 0x0000700000000000 := rfl
        have hupper := hok.upper
        obtain ⟨hle, _, hmod⟩ := alignUp_spec (v := ph.vaddr + ph.memsz) (by omega)
        have hcount := pageCount_mul hok.aligned hmod (by omega)
        refine Confined.bind ((confined_loadPages hs file ph _ _).mono ?_) (fun _ => hrest)
        intro v _ hin
        have hlt := hin.2
        rw [hcount] at hlt
        exact Nat.lt_of_lt_of_le hlt hok.below
      next => exact hrest

/-- A file that is loaded has its pages below the end of the image. -/
theorem elfLoad_spec (h : Ledger m a free) (hs : s ∈ a.spaces) (file : FileView) :
    Eff.Post (elfLoad file s) m (fun r m' => ∀ entry imageEnd, r = .ok (entry, imageEnd) →
      imageEnd % pageSize = 0 ∧ userElfMinVaddr ≤ imageEnd ∧ imageEnd ≤ userElfMaxVaddr ∧
        ∀ v, UserPage v → imageEnd ≤ v → leafAt m' s v = leafAt m s v) := by
  unfold elfLoad
  split
  next =>
    refine Eff.post_of_eq rfl (fun entry imageEnd hr => ?_)
    cases hr
  next phdrs entry imageEnd himage =>
    obtain ⟨halign, hlo, hhi, hseg⟩ := readImage_spec himage
    refine Eff.post_bind (confined_loadSegments hs file phdrs hseg m free h) ?_ ?_
    · intro e m' _ entry imageEnd hr
      cases hr
    · rintro _ m' ⟨_, hleaves⟩
      refine Eff.post_of_eq rfl (fun entry' imageEnd' hr => ?_)
      cases hr
      exact ⟨halign, hlo, hhi, fun v hv hle => hleaves v hv (Nat.not_lt.mpr hle)⟩

end Process
end Nyxis
