import Nyxis.Process.Heap
import Nyxis.Mm.FreeCount

/-!
# What a failed growth of the heap costs

A growing {lit}`umem_brk` that runs out of frames unmaps the pages it has mapped and
gives their frames back.  The page tables it has created on the way stay with the address
space: {lit}`rollback_pages` goes through the mapped pages only.

Main results:

- Definition {lit}`TablesReach`: the pages that the free frames suffice to map, with one
  frame to spare, have their page tables.
- Theorem {lit}`failed_growth_frames_iff`: after which failures the number of free frames
  is the one before.
- Theorem {lit}`failed_growth_loses_table`: a failed growth that keeps a frame.
-/

namespace Nyxis
namespace Process

open Mm

variable {boot : Finset Nat} {base : Nat → Nat → Nat} {k : Kernel} {l : List Nat}
  {m m' : Memory} {a : Account} {free : List Nat} {s : Nat}

/-! ## One page -/

/-- The address has its page table. -/
def HasTable (m : Memory) (s v : Nat) : Prop :=
  (tableAt m.mem s (ptPos v)).isSome

theorem userPos_ptPos {v : Nat} (hv : UserPage v) : UserPos (ptPos v) :=
  UserPos.of_snoc _ _ (userPos_levels hv.1).2.2.2

/-- The arguments of a heap page are good. -/
theorem mapArgs_data (nx : Bool) {v : Nat} (hv : UserPage v) (hv0 : v ≠ 0) :
    MapArgs nx v dataFlags where
  aligned := hv.2
  ne_zero := hv0
  user := hv.1
  writeXorExecute hnx _ := by
    rw [hnx]
    decide

/-- A page that has its page table takes the first free frame. -/
theorem mapFreshPage_reached {f : Nat} {fs : List Nat} (h : Ledger m a (f :: fs))
    (hs : s ∈ a.spaces) {v : Nat} (hv : UserPage v) (hv0 : v ≠ 0)
    (hun : leafAt m s v = none) (ht : HasTable m s v) :
    ∃ m', mapFreshPage s v dataFlags (fun _ => pure ()) m = (.ok f, m') ∧ Ledger m' a fs ∧
      Follows m (f :: fs) m' fs ∧
      ∀ w, UserPage w → (HasTable m' s w ↔ HasTable m s w) := by
  obtain ⟨hled, hsame, _⟩ := h.alloc
  have hf : f ∈ insert f a.held := Finset.mem_insert_self f a.held
  have hnot : f ∉ a.held := fun hcon => h.held_free f hcon (List.mem_cons_self ..)
  obtain ⟨pt, hpt'⟩ := Option.isSome_iff_exists.mp ht
  have htab : tableAt (popFree m).mem s (ptPos v) = some pt := by
    rw [hsame.tableAt hs (userPos_ptPos hv)]
    exact hpt'
  have hun' : entryAt (popFree m).mem s (leafPos v) = none := by
    rw [hsame s hs _ (userPos_leafPos hv.1)]
    exact hun
  obtain ⟨m', hrun, hled', hfollow, htables⟩ :=
    hled.pagingMapPage_present hs hf (mapArgs_data _ hv hv0) htab hun'
  have hacc : (insert f a.held).erase f = a.held := Finset.erase_insert hnot
  simp only [hacc] at hled'
  refine ⟨m', ?_, hled', (follows_pop m f fs).trans hfollow, fun w hw => ?_⟩
  · unfold mapFreshPage
    rw [Eff.bind_ok (pfaAlloc_cons h.allocator), Eff.attempt_bind_run, Eff.pure_bind_run, hrun]
    rfl
  · unfold HasTable
    rw [htables _ (userPos_ptPos hw) (by simp [ptPos]), hsame.tableAt hs (userPos_ptPos hw)]

/-- Without a free frame nothing happens. -/
theorem mapFreshPage_empty (h : Ledger m a []) (v flags : Nat) (fill : Nat → MemM Unit) :
    mapFreshPage s v flags fill m = (.error .NoutOfMemory, m) := by
  unfold mapFreshPage
  exact Eff.bind_error (pfaAlloc_nil h.allocator)

/-- A page without its page table costs a frame more, and that frame is gone even where
the page cannot be mapped. -/
theorem mapFreshPage_missing (h : Ledger m a free) (hs : s ∈ a.spaces) {v : Nat}
    (hv : UserPage v) (hv0 : v ≠ 0) (ht : ¬ HasTable m s v) :
    Eff.Post (mapFreshPage s v dataFlags (fun _ => pure ())) m (fun r m' =>
      ∃ free', Ledger m' a free' ∧ Follows m free m' free' ∧
        (∀ f, r = .ok f → free'.length + 1 < free.length) ∧
        (∀ e, r = .error e → free'.length ≤ free.length ∧
          (free'.length = free.length ↔ free.length < 2))) := by
  cases free with
  | nil =>
      refine Eff.post_of_eq (mapFreshPage_empty h v dataFlags _)
        ⟨[], h, Follows.refl m [], nofun, fun e _ => ?_⟩
      simp
  | cons f fs =>
      obtain ⟨hled, hsame, _⟩ := h.alloc
      have hf : f ∈ insert f a.held := Finset.mem_insert_self f a.held
      have hnot : f ∉ a.held := fun hcon => h.held_free f hcon (List.mem_cons_self ..)
      have hacc : (insert f a.held).erase f = a.held := Finset.erase_insert hnot
      have hframe : Frame f := h.frame f (h.free_boot f (List.mem_cons_self ..))
      have hmiss : ¬ (tableAt (popFree m).mem s (ptPos v)).isSome := by
        rw [hsame.tableAt hs (userPos_ptPos hv)]
        exact ht
      unfold mapFreshPage
      refine Eff.post_bind_ok (pfaAlloc_cons h.allocator) ?_
      refine Eff.post_attempt_bind (Eff.post_and (hled.pagingMapPage_post hs hf v dataFlags)
        (hled.pagingMapPage_takes hs hf (mapArgs_data _ hv hv0))) ?_
      rintro r m₂ ⟨hr, a₂, fs₂, hled₂, hfollow, hle, hsome, hok⟩
      have hall := (follows_pop m f fs).trans hfollow
      rcases hr with ⟨rfl, hm⟩ | ⟨e, rfl, hg⟩
      · obtain ⟨fs₃, hled₃⟩ := hm.ledger
        simp only [hacc] at hled₃
        obtain rfl := hled₂.free_unique hled₃
        have hne : fs₃.length ≠ fs.length := fun heq => hmiss (hok rfl heq)
        refine Eff.post_of_eq rfl ⟨fs₃, hled₃, hall, fun g _ => ?_, nofun⟩
        rw [List.length_cons]
        omega
      · -- the frame of the page goes back
        obtain ⟨fs₃, hled₃⟩ := hg.ledger
        obtain rfl := hled₂.free_unique hled₃
        obtain ⟨hled₄, _, _⟩ := hled₃.release hf
        simp only [hacc] at hled₄
        have hundo : (do Eff.ignore (pfaFree f); Eff.fail e : MemM Nat) m₂ =
            (.error e, pushFree m₂ f) := by
          rw [Eff.ignore_bind_run, pfaFree_push hframe.ne_zero hframe.aligned]
          rfl
        refine Eff.post_of_eq hundo ⟨f :: fs₃, hled₄, hall.trans (follows_push m₂ f fs₃), nofun, ?_⟩
        intro e' _
        simp only [List.length_cons, Nat.add_le_add_iff_right, Nat.add_right_cancel_iff]
        refine ⟨hle, fun heq => ?_, fun hlt => by omega⟩
        rcases hsome heq with hcon | hnil
        · exact absurd hcon hmiss
        · rw [hnil]
          decide

/-! ## The loop -/

/-- Releasing pages that are all mapped gives back one frame for each. -/
theorem releasePages_gives (h : Ledger m a free) (hs : s ∈ a.spaces) (n : Nat) {page : Nat}
    (halign : page % pageSize = 0) (hpos : 0 < page) (hend : page + n * pageSize ≤ userSpaceEnd)
    (hbound : ∀ v, UserPage v → Within page (page + n * pageSize) v → (leafAt m s v).isSome) :
    Eff.Post (releasePages s n page) m (fun _ m' => ∃ free', Ledger m' a free' ∧
      Follows m free m' free' ∧ free'.length = free.length + n) := by
  induction n generalizing m free page with
  | zero => exact Eff.post_of_eq rfl ⟨free, h, Follows.refl m free, rfl⟩
  | succ n ih =>
      have hmul : (n + 1) * pageSize = pageSize + n * pageSize := by ring
      rw [hmul, ← Nat.add_assoc] at hend hbound
      have hpage : UserPage page := by
        refine ⟨?_, halign⟩
        simp only [pageSize] at hend
        omega
      have hfirst : Within page (page + pageSize + n * pageSize) page := by
        simp only [Within, pageSize]
        omega
      obtain ⟨e, he⟩ := Option.isSome_iff_exists.mp (hbound page hpage hfirst)
      refine Eff.post_ignore_bind (Eff.post_and
        (h.unmapFree_gives hs hpage.1 (by omega) halign he)
        (unmapFree_spec h hs hpage (by omega))) ?_
      rintro _ m₁ ⟨⟨free₁, hled₁, hfollow₁, hlen₁⟩, hsp, _⟩
      have halign' : (page + pageSize) % pageSize = 0 := by
        rw [Nat.add_mod_right]
        exact halign
      refine Eff.post_mono (ih hled₁ halign' (by omega) hend ?_) ?_
      · intro v hv hin
        have hne : v ≠ page := by
          have := hin.1
          simp only [pageSize] at this
          omega
        rw [hsp.leaves v hv hne]
        exact hbound v hv ⟨by have := hin.1; omega, hin.2⟩
      · rintro _ m₂ ⟨free₂, hled₂, hfollow₂, hlen₂⟩
        exact ⟨free₂, hled₂, hfollow₁.trans hfollow₂, by omega⟩

/-- Releasing pages does not fail. -/
theorem releasePages_ok (s n page : Nat) (m : Memory) :
    Eff.Post (releasePages s n page) m (fun r _ => r = .ok ()) := by
  induction n generalizing page m with
  | zero => exact Eff.post_of_eq rfl rfl
  | succ n ih =>
      exact Eff.post_ignore_bind (R := fun _ _ => True) trivial (fun _ m' _ => ih _ m')

/-- Each of the pages that the given number of frames suffices to map, with one frame to
spare, has its page table. -/
def Reach (m : Memory) (s page n frames : Nat) : Prop :=
  ∀ i < n, i + 2 ≤ frames → HasTable m s (page + i * pageSize)

/-- With fewer than two frames no table is created. -/
theorem reach_of_lt {page n frames : Nat} (h : frames < 2) : Reach m s page n frames :=
  fun i _ hi => by omega

/-- The first page and the others. -/
theorem reach_succ_iff {page n frames : Nat} (ht : HasTable m s page)
    (hsame : ∀ i < n, (HasTable m' s (page + pageSize + i * pageSize) ↔
      HasTable m s (page + pageSize + i * pageSize))) :
    Reach m' s (page + pageSize) n frames ↔ Reach m s page (n + 1) (frames + 1) := by
  constructor
  · intro h i hi hframes
    cases i with
    | zero => simpa using ht
    | succ i =>
        have hmul : page + (i + 1) * pageSize = page + pageSize + i * pageSize := by ring
        rw [hmul, ← hsame i (by omega)]
        exact h i (by omega) (by omega)
  · intro h i hi hframes
    rw [hsame i hi]
    have hmul : page + (i + 1) * pageSize = page + pageSize + i * pageSize := by ring
    rw [← hmul]
    exact h (i + 1) (by omega) (by omega)

/-- The pages between two mapped pages of a range. -/
theorem userPage_step {page n i : Nat} (halign : page % pageSize = 0) (hi : i < n)
    (hend : page + n * pageSize ≤ userSpaceEnd) : UserPage (page + i * pageSize) := by
  have hmul : (i + 1) * pageSize ≤ n * pageSize := Nat.mul_le_mul_right _ hi
  have hsucc : (i + 1) * pageSize = i * pageSize + pageSize := by ring
  have hpage : 0 < pageSize := by decide
  refine ⟨by omega, ?_⟩
  rw [Nat.add_mul_mod_self_right]
  exact halign

/-- A failing loop gives all its data frames back, and it keeps a frame unless the pages
within reach have their tables. -/
theorem growHeap_frames {m₀ : Memory} (hs : s ∈ a.spaces) {first : Nat}
    (halign : first % pageSize = 0) (hpos : 0 < first) (n : Nat) {page : Nat}
    (h : Grew m₀ m a s first page) (hled : Ledger m a free) (hle : first ≤ page)
    (halign' : page % pageSize = 0) (hend : page + n * pageSize ≤ userSpaceEnd)
    (hun : ∀ v, UserPage v → Within page (page + n * pageSize) v → leafAt m s v = none) :
    Eff.Post (growHeap s first n page) m (fun r m' => ∀ e, r = .error e →
      ∃ free', Ledger m' a free' ∧ Follows m free m' free' ∧
        free'.length ≤ free.length + pageCount first page ∧
        (free'.length = free.length + pageCount first page ↔ Reach m s page n free.length)) := by
  induction n generalizing m free page with
  | zero => exact Eff.post_of_eq rfl nofun
  | succ n ih =>
      have hmul : (n + 1) * pageSize = pageSize + n * pageSize := by ring
      rw [hmul, ← Nat.add_assoc] at hend hun
      have hpage : UserPage page := by
        refine ⟨?_, halign'⟩
        simp only [pageSize] at hend
        omega
      have hzero : page ≠ 0 := by omega
      have hcount : pageCount first (page + pageSize) = pageCount first page + 1 := by
        simp only [pageCount, pageSize]
        omega
      have hcover : first + pageCount first page * pageSize = page :=
        pageCount_mul halign halign' hle
      have hnext : (page + pageSize) % pageSize = 0 := by
        rw [Nat.add_mod_right]
        exact halign'
      -- a page that could not be mapped makes the loop give back those before it
      have hback : ∀ {m₁ : Memory} {free₁ : List Nat} (e : Nstatus), Ledger m₁ a free₁ →
          Spared m m₁ a s (fun _ => False) →
          Eff.Post (do releasePages s (pageCount first page) first; Eff.fail e : MemM Unit) m₁
            (fun _ m' => ∃ free', Ledger m' a free' ∧ Follows m₁ free₁ m' free' ∧
              free'.length = free₁.length + pageCount first page) := by
        intro m₁ free₁ e hled₁ hsp
        refine Eff.post_bind (releasePages_gives hled₁ hs _ halign hpos
          (by rw [hcover]; exact Nat.le_of_lt hpage.1) ?_) (fun _ _ hp => hp)
          (fun _ m' hp => Eff.post_of_eq rfl hp)
        rw [hcover]
        intro v hv hin
        obtain ⟨f, _, hleaf, _⟩ := h.fresh v hv hin
        rw [hsp.leaves v hv id, hleaf]
        rfl
      have hfirst : Within page (page + pageSize + n * pageSize) page := by
        simp only [Within, pageSize]
        omega
      have hrest : ∀ {m₁ : Memory} {f : Nat}, FreshPage m m₁ a s page dataFlags f →
          ∀ v, UserPage v → Within (page + pageSize) (page + pageSize + n * pageSize) v →
            leafAt m₁ s v = none := by
        intro m₁ f hfresh v hv hin
        have hne : v ≠ page := by
          have := hin.1
          simp only [pageSize] at this
          omega
        rw [(hfresh.spared hs).leaves v hv hne]
        exact hun v hv ⟨by have := hin.1; omega, hin.2⟩
      by_cases ht : HasTable m s page
      · cases free with
        | nil =>
            refine Eff.post_attempt_bind (R := fun r m' => r = .error .NoutOfMemory ∧ m' = m)
              (Eff.post_of_eq (mapFreshPage_empty hled page dataFlags _) ⟨rfl, rfl⟩) ?_
            rintro _ _ ⟨rfl, rfl⟩
            refine Eff.post_mono (hback .NoutOfMemory hled (Spared.refl hled _)) ?_
            rintro _ m' ⟨free', hled', hfollow, hlen⟩ _ _
            exact ⟨free', hled', hfollow, Nat.le_of_eq hlen,
              ⟨fun _ => reach_of_lt (by simp), fun _ => hlen⟩⟩
        | cons f fs =>
            obtain ⟨m₁, hrun, hled₁, hfollow₁, hsame⟩ :=
              mapFreshPage_reached hled hs hpage hzero (hun page hpage hfirst) ht
            refine Eff.post_attempt_bind (Eff.post_and
              (mapFreshPage_leaf hled hs page dataFlags fills_pure)
              (R := fun r m' => r = .ok f ∧ m' = m₁) (Eff.post_of_eq hrun ⟨rfl, rfl⟩)) ?_
            rintro _ m₂ ⟨⟨g, hg, hfresh, hclear⟩ | ⟨e, hcon, _⟩, rfl, rfl⟩
            swap
            · cases hcon
            cases hg
            refine Eff.post_mono (ih (h.next hs hle hfresh (hclear rfl)) hled₁ (by omega) hnext
              hend (hrest hfresh)) ?_
            intro r m' hr e he
            obtain ⟨free', hled', hfollow, hlen, hiff⟩ := hr e he
            have hreach : Reach m₂ s (page + pageSize) n fs.length ↔
                Reach m s page (n + 1) (fs.length + 1) :=
              reach_succ_iff ht (fun i hi => hsame _ (userPage_step hnext hi hend))
            rw [hcount] at hlen hiff
            refine ⟨free', hled', hfollow₁.trans hfollow, ?_, ?_⟩
            · rw [List.length_cons]
              omega
            · rw [List.length_cons, ← hreach, ← hiff]
              omega
      · -- a table has to be created here, unless fewer than two frames are free
        have hreach : ¬ free.length < 2 → ¬ Reach m s page (n + 1) free.length := by
          intro htwo hcon
          have hzero := hcon 0 (by omega) (by omega)
          rw [Nat.zero_mul, Nat.add_zero] at hzero
          exact ht hzero
        refine Eff.post_attempt_bind (Eff.post_and
          (mapFreshPage_leaf hled hs page dataFlags fills_pure)
          (mapFreshPage_missing hled hs hpage hzero ht)) ?_
        rintro _ m₁ ⟨⟨f, rfl, hfresh, hclear⟩ | ⟨e, rfl, hres⟩, free₁, hled₁, hfollow₁, hok, herr⟩
        · have hless := hok f rfl
          refine Eff.post_mono (ih (h.next hs hle hfresh (hclear rfl)) hled₁ (by omega) hnext
            hend (hrest hfresh)) ?_
          intro r m' hr e he
          obtain ⟨free', hled', hfollow, hlen, _⟩ := hr e he
          rw [hcount] at hlen
          refine ⟨free', hled', hfollow₁.trans hfollow, by omega, fun heq => by omega, ?_⟩
          intro hcon
          exact absurd hcon (hreach (by omega))
        · obtain ⟨hless, hiff⟩ := herr e rfl
          refine Eff.post_mono (hback e hled₁ (hres.spared hs _)) ?_
          rintro _ m' ⟨free', hled', hfollow, hlen⟩ _ _
          refine ⟨free', hled', hfollow₁.trans hfollow, by omega, fun heq => ?_, fun hcon => ?_⟩
          · exact reach_of_lt (hiff.mp (by omega))
          · by_contra hne
            exact hreach (fun htwo => hne (by have := hiff.mpr htwo; omega)) hcon

/-! ## The call -/

/-- The checks of a growing call let it come to its pages. -/
structure Admitted (r : Proc) (increment : Int) : Prop where
  user : r.addrspace ≠ 0
  positive : 0 < increment
  call : increment.toNat ≤ heapGrowMaxPerCall
  total : r.heapBrk + increment.toNat ≤ r.heapStart + heapMaxTotal
  guard : r.heapBrk + increment.toNat < userStackGuard

/-- A growing call that comes to its pages finds page tables for all those that the free
frames suffice to map with one frame to spare. -/
def TablesReach (p : Nat) (increment : Int) (k : Kernel) : Prop :=
  Admitted (k.procs p) increment →
    ∀ free, FreeList k.memory.mem k.memory.freeHead free →
      Reach k.memory (k.procs p).addrspace (alignUp (k.procs p).heapBrk pageSize)
        (pageCount (alignUp (k.procs p).heapBrk pageSize)
          (alignUp ((k.procs p).heapBrk + increment.toNat) pageSize)) free.length

/-- A memory computation that is followed by an update of the process fails where it fails
itself. -/
theorem brkFailed_post {p brk : Nat} {c : MemM Unit} {R : Memory → Prop}
    (hc : Eff.Post c k.memory (fun r m' => ∀ e, r = .error e → R m')) :
    Eff.Post (do
      onMemory c
      setProc p (fun r => { r with heapBrk := brk })
      pure brk : KernelM Nat) k (fun r k' => ∀ e, r = .error e → R k'.memory) := by
  refine brkEnd_post hc (fun m' _ => nofun) (fun e m' hm e' _ => hm e rfl)

/-- A failed call leaves the number of free frames as it was exactly if the tables reach. -/
theorem HeapInv.failed_frames {p : Nat} (h : HeapInv p k) (increment : Int) :
    Eff.Post (umemBrk p increment) k (fun r k' => ∀ e, r = .error e →
      (k'.memory.freeCount = k.memory.freeCount ↔ TablesReach p increment k)) := by
  obtain ⟨boot, base, l, howned⟩ := h.owned
  have hp : p ∈ l := (howned.members p).mpr ⟨h.slot, h.inUse⟩
  obtain ⟨free, hled⟩ := howned.ledger
  have hs : (k.procs p).addrspace ∈ (accountOf boot base ∅ k l).spaces :=
    Finset.mem_union_left _ (mem_slotSpaces.mpr ⟨h.space, p, hp, rfl⟩)
  obtain ⟨hpos, hbrk, hbelow, hlast⟩ := h.heap.bounds
  have hguard : userStackGuard = 0x00007FF7FFFEF000 := rfl
  have hend : userSpaceEnd = 0x0000800000000000 := rfl
  have hpage : pageSize = 4096 := rfl
  have htotal : heapMaxTotal = 0x20000000 := rfl
  have hgrow : heapGrowMaxPerCall = 0x10000000 := rfl
  have hstart := h.heap.start_le
  have hbrkle := h.heap.brk_le
  -- a call that is refused changes nothing
  have hstop : ∀ e, ¬ Admitted (k.procs p) increment → Eff.Post (failWith e : KernelM Nat) k
      (fun r k' => ∀ e, r = .error e →
        (k'.memory.freeCount = k.memory.freeCount ↔ TablesReach p increment k)) :=
    fun e hnot => Eff.post_of_eq rfl (fun _ _ => iff_of_true rfl (fun hadm => absurd hadm hnot))
  unfold umemBrk
  refine Eff.post_gets_bind ?_
  dsimp only
  split
  next hzero => exact absurd hzero h.space
  split
  · exact Eff.post_of_eq rfl nofun
  split
  next hup =>
    split
    next hinc => exact hstop _ (fun hadm => Nat.not_lt.mpr hadm.call hinc)
    next hinc =>
    rw [Nat.mod_eq_of_lt (show (k.procs p).heapBrk + increment.toNat < 2 ^ 64 by omega)]
    split
    next htot =>
      refine hstop _ (fun hadm => ?_)
      have := hadm.total
      omega
    next htot =>
    split
    next habove => exact hstop _ (fun hadm => Nat.not_le.mpr hadm.guard habove)
    next hunder =>
    have hadm : Admitted (k.procs p) increment :=
      ⟨h.space, hup, Nat.not_lt.mp hinc, by omega, Nat.not_le.mp hunder⟩
    obtain ⟨brk, hbrkeq⟩ : ∃ brk, brk = (k.procs p).heapBrk + increment.toNat := ⟨_, rfl⟩
    obtain ⟨hlo₁, hlt₁, hmod₁⟩ := alignUp_spec (v := (k.procs p).heapBrk) (by omega)
    obtain ⟨hlo₂, hlt₂, hmod₂⟩ := alignUp_spec (v := brk) (by omega)
    have hcount := pageCount_mul hmod₁ hmod₂
      (alignUp_mono (show (k.procs p).heapBrk ≤ brk by omega) (by omega))
    have hempty : pageCount (alignUp (k.procs p).heapBrk pageSize)
        (alignUp (k.procs p).heapBrk pageSize) = 0 := by
      simp [pageCount, pageSize]
    have htables : TablesReach p increment k ↔
        Reach k.memory (k.procs p).addrspace (alignUp (k.procs p).heapBrk pageSize)
          (pageCount (alignUp (k.procs p).heapBrk pageSize) (alignUp brk pageSize)) free.length := by
      unfold TablesReach
      rw [← hbrkeq]
      constructor
      · exact fun hreach => hreach hadm free hled.allocator.list
      · intro hreach _ free' hlist
        rw [hlist.unique hled.allocator.list]
        exact hreach
    rw [← hbrkeq]
    refine brkFailed_post (R := fun m' => m'.freeCount = k.memory.freeCount ↔
      TablesReach p increment k) (Eff.post_mono (growHeap_frames hs hmod₁ (by omega) _
        (Grew.refl hled _) hled (Nat.le_refl _) hmod₁ ?_ ?_) ?_)
    · rw [hcount]
      rw [hpage] at hlt₂ ⊢
      omega
    · intro v hv hin
      rw [hcount] at hin
      have hnone := h.heap.mapped v hv ⟨?_, ?_⟩
      · rw [translate_leafAt ⟨free, hled⟩ hs hv, Option.isSome_map] at hnone
        have hout : ¬ v < alignUp (k.procs p).heapBrk pageSize := Nat.not_lt.mpr hin.1
        rw [iff_false_right hout, Bool.not_eq_true, Option.isSome_eq_false_iff,
          Option.isNone_iff_eq_none] at hnone
        exact hnone
      · exact Nat.le_trans hstart (Nat.le_trans hlo₁ hin.1)
      · have := hin.2
        rw [hpage] at hlt₂ hmod₂ this
        omega
    · intro r m' hr e he
      obtain ⟨free', hled', hfollow, hle, hiff⟩ := hr e he
      rw [hempty, Nat.add_zero] at hiff
      rw [hfollow.count_eq_iff hled.length_lt hled'.length_lt, hiff, htables]
  next hdown =>
    have hnot : ¬ Admitted (k.procs p) increment := fun hadm => hdown hadm.positive
    split
    · exact hstop _ hnot
    split
    · exact hstop _ hnot
    refine brkFailed_post (R := fun m' => m'.freeCount = k.memory.freeCount ↔
      TablesReach p increment k) ?_
    -- the loop of a shrinking call does not fail
    exact Eff.post_mono (releasePages_ok _ _ _ _) (fun r m' hr e he => by rw [hr] at he; cases he)

/-! ## Runs -/

/-- A thread of the kernel has no heap, and its calls change nothing. -/
theorem umemBrk_kernel_thread {p : Nat} (h : (k.procs p).addrspace = 0) (increment : Int) :
    umemBrk p increment k = (.error (.status .Npermission), k) := by
  unfold umemBrk
  rw [Eff.gets_bind_run]
  dsimp only
  rw [if_pos h]
  rfl

/-- Heap calls of threads of the kernel change nothing.  In every state of every run of heap
calls of a spawned process, a call that fails leaves the number of free frames as it was
exactly if it is refused at once or finds page tables for the pages within reach. -/
theorem failed_growth_frames_iff {k₀ k₁ : Kernel} (h : Started boot k₀) (hr : Run k₀ k)
    {file : Except Nstatus FileView} {pid : Nat} (hspawn : processSpawn file k = (.ok pid, k₁)) :
    (∀ p increment, (k.procs p).addrspace = 0 → (umemBrk p increment k).2 = k) ∧
    ∃ p, Spawned k k₁ pid p ∧ ∀ k₂, HeapRun p k₁ k₂ → ∀ increment e,
      (umemBrk p increment k₂).1 = .error e →
        ((umemBrk p increment k₂).2.memory.freeCount = k₂.memory.freeCount ↔
          TablesReach p increment k₂) := by
  refine ⟨fun p increment hp => by rw [umemBrk_kernel_thread hp], ?_⟩
  obtain ⟨l, howned⟩ := h.owned.run hr
  have hpost := processSpawn_heap howned file
  unfold Eff.Post at hpost
  rw [hspawn] at hpost
  obtain ⟨p, hnew, hinv⟩ := hpost pid rfl
  refine ⟨p, hnew, fun k₂ hrun increment e hfail => ?_⟩
  obtain ⟨hinv₂, _⟩ := hinv.run hrun
  exact hinv₂.failed_frames increment e hfail

/-- An executable whose single page is the last one below one gibibyte. -/
def edgeImage : List UInt8 :=
  leBytes elfMagic 4 ++ [2, 1, 1, 0] ++ leBytes 0 8 ++
    leBytes etExec 2 ++ leBytes emX8664 2 ++ leBytes 1 4 ++ leBytes 0x3FFFF000 8 ++
    leBytes elfHeaderSize 8 ++ leBytes 0 8 ++ leBytes 0 4 ++ leBytes 64 2 ++
    leBytes elfPhdrSize 2 ++ leBytes 1 2 ++ leBytes 0 6 ++
    leBytes ptLoad 4 ++ leBytes 5 4 ++ leBytes 120 8 ++ leBytes 0x3FFFF000 8 ++
    leBytes 0 8 ++ leBytes 4 8 ++ leBytes 16 8 ++ leBytes 0 8 ++ [0xEB, 0xFE, 0x90, 0x90]

def edgeFile : FileView where
  size := .ok edgeImage.length
  read offset len := .ok ((edgeImage.drop offset).take len)

/-- A machine with twenty-six free frames. -/
def edgeBoot : List Nat :=
  (List.range' 1 26).map (fun i => i * 0x1000)

def edgeStart : Kernel :=
  (processInit {
    memory := {
      mem := fun f i => if i = 0 ∧ f < 0x1A000 then f + 0x1000 else 0
      freeHead := 0x1000
      freeCount := 26
      nxSupported := true
      kernelPml4 := 0x100000 }
    procs := fun _ => Proc.zero
    processList := none
    current := none
    nextPid := 1
    tick := 0
    lastExitCode := 0 }).2

theorem started_edgeStart : Started edgeBoot.toFinset edgeStart where
  allocator := ⟨edgeBoot, ⟨by decide +kernel, by decide +kernel⟩, rfl⟩
  frame := by
    intro f hf
    rw [List.mem_toFinset, edgeBoot, List.mem_map] at hf
    obtain ⟨i, hi, rfl⟩ := hf
    rw [List.mem_range'_1] at hi
    refine ⟨by omega, by simp [pageSize], by omega⟩
  kernel := by decide +kernel
  table := ⟨_, rfl, rfl⟩

/-- The machine after the program has been spawned. -/
def edgeKernel : Kernel :=
  (processSpawn (.ok edgeFile) edgeStart).2

theorem edgeKernel_spawned :
    processSpawn (.ok edgeFile) edgeStart = (.ok 1, edgeKernel) := by
  have hresult : (processSpawn (.ok edgeFile) edgeStart).1.toOption = some 1 := by
    decide +kernel
  unfold edgeKernel
  cases hrun : processSpawn (.ok edgeFile) edgeStart with
  | mk r k₁ =>
      rw [hrun] at hresult
      cases r with
      | error e => cases hresult
      | ok pid =>
          cases hresult
          rfl

theorem failed_growth_frames_edge : Started edgeBoot.toFinset edgeStart ∧
    ∃ p, Spawned edgeStart edgeKernel 1 p ∧ ∀ k₂, HeapRun p edgeKernel k₂ → ∀ increment e,
      (umemBrk p increment k₂).1 = .error e →
        ((umemBrk p increment k₂).2.memory.freeCount = k₂.memory.freeCount ↔
          TablesReach p increment k₂) := by
  have hall := failed_growth_frames_iff started_edgeStart Relation.ReflTransGen.refl
    edgeKernel_spawned
  exact ⟨started_edgeStart, hall.2⟩

/-- The heap of the program starts where a new page directory begins.  Two frames are free
when it asks for one byte of heap: one for the page and one for the directory, so that the
call fails, and one frame is free afterwards. -/
theorem failed_growth_loses_table :
    Started edgeBoot.toFinset edgeStart ∧
      processSpawn (.ok edgeFile) edgeStart = (.ok 1, edgeKernel) ∧
      edgeKernel.memory.freeCount.toNat = 2 ∧
      (∃ e, (umemBrk 1 1 edgeKernel).1 = .error e) ∧
      (umemBrk 1 1 edgeKernel).2.memory.freeCount.toNat = 1 := by
  have hbefore : edgeKernel.memory.freeCount.toNat = 2 := by
    decide +kernel
  have hresult : (umemBrk 1 1 edgeKernel).1.toOption = none := by
    decide +kernel
  have hafter : (umemBrk 1 1 edgeKernel).2.memory.freeCount.toNat = 1 := by
    decide +kernel
  have herror : ∃ e, (umemBrk 1 1 edgeKernel).1 = .error e := by
    cases hrun : (umemBrk 1 1 edgeKernel).1 with
    | error e => exact ⟨e, rfl⟩
    | ok brk =>
        rw [hrun] at hresult
        cases hresult
  exact ⟨started_edgeStart, edgeKernel_spawned, hbefore, herror, hafter⟩

end Process
end Nyxis
