import Nyxis.Mm.Paging
import Nyxis.Lib.TableTree
import Mathlib.Data.Finset.Basic

/-!
# Who owns a frame

Every frame handed to the allocator at boot is in exactly one place: on the free
list, in the hands of a caller that allocated it, or at one position of one
address space.  The ledger states this, together with the shape of the entries
of user page tables and of the shared kernel half.

The operations of the memory subsystem are compositions of a few moves between
these places.  Each move is one theorem here: it keeps the ledger and says which
entries of which address space it changes.

Main results:

- Definition {lit}`Ledger`: the ownership invariant.
- Theorems {lit}`Ledger.alloc`, {lit}`Ledger.release`, {lit}`Ledger.install`,
  {lit}`Ledger.unmap`, {lit}`Ledger.scribble`, {lit}`Ledger.newSpace` and
  {lit}`Ledger.close`: the moves.
-/

namespace Nyxis
namespace Mm

/-- An entry is present. -/
abbrev isPresent (entry : Nat) : Bool :=
  hasFlag entry pagePresent

/-- The frame at a position of an address space. -/
abbrev tableAt (mem : Nat → Nat → Nat) : Nat → List Nat → Option Nat :=
  TableTree.tableAt isPresent tableOf mem

/-- The present entry at a position of an address space. -/
abbrev entryAt (mem : Nat → Nat → Nat) : Nat → List Nat → Option Nat :=
  TableTree.entryAt isPresent tableOf mem

/-- Positions of the user half: at most four indices, the first of them in the
lower half of the top-level table. -/
structure UserPos (p : List Nat) : Prop where
  length_le : p.length ≤ 4
  lt : ∀ i ∈ p, i < entriesPerTable
  top : ∀ i ∈ p.head?, i < hhdmPml4Index

theorem userPos_nil : UserPos [] where
  length_le := by simp
  lt := by simp
  top := by simp

theorem UserPos.of_snoc (p : List Nat) (i : Nat) (h : UserPos (p ++ [i])) : UserPos p where
  length_le := by
    have := h.length_le
    rw [List.length_append] at this
    omega
  lt j hj := h.lt j (List.mem_append_left _ hj)
  top j hj := by
    cases p with
    | nil => simp at hj
    | cons k p => exact h.top j (by simpa using hj)

/-- The frames handed out at boot, the memory outside them, and where the frames
that are not free are. -/
structure Account where
  boot : Finset Nat
  base : Nat → Nat → Nat
  held : Finset Nat
  spaces : Finset Nat

/-- The ownership invariant of the memory subsystem. -/
structure Ledger (m : Memory) (a : Account) (free : List Nat) : Prop where
  allocator : Allocator m free
  frame : ∀ f ∈ a.boot, Frame f
  free_boot : ∀ f ∈ free, f ∈ a.boot
  held_boot : ∀ f ∈ a.held, f ∈ a.boot
  held_free : ∀ f ∈ a.held, f ∉ free
  owned : ∀ s ∈ a.spaces, ∀ p, UserPos p → ∀ f, tableAt m.mem s p = some f →
    f ∈ a.boot ∧ f ∉ free ∧ f ∉ a.held
  unique : ∀ s ∈ a.spaces, ∀ s' ∈ a.spaces, ∀ p p', UserPos p → UserPos p' → ∀ f,
    tableAt m.mem s p = some f → tableAt m.mem s' p' = some f → s = s' ∧ p = p'
  covered : ∀ f ∈ a.boot, f ∈ free ∨ f ∈ a.held ∨
    ∃ s ∈ a.spaces, ∃ p, UserPos p ∧ tableAt m.mem s p = some f
  tables : ∀ s ∈ a.spaces, ∀ p, UserPos p → p.length < 4 → ∀ e,
    entryAt m.mem s p = some e → ∃ g, Frame g ∧ e = tableEntry g
  leaves : ∀ s ∈ a.spaces, ∀ p, UserPos p → p.length = 4 → ∀ e,
    entryAt m.mem s p = some e → ∃ g flags, Frame g ∧ e = leafEntry g flags ∧
      (m.nxSupported = true → hasFlag flags pageRw = true → hasFlag flags pageNx = true)
  outside : ∀ f, f ∉ a.boot → m.mem f = a.base f
  kernel : m.kernelPml4 ∉ a.boot
  upper : ∀ s ∈ a.spaces, ∀ i, hhdmPml4Index ≤ i →
    m.mem s i = 0 ∨ m.mem s i = a.base m.kernelPml4 i

/-- What a move leaves alone: the globals of paging and the kernel half of the
given address spaces. -/
structure Steady (m m' : Memory) (spaces : Finset Nat) : Prop where
  nx : m'.nxSupported = m.nxSupported
  pml4 : m'.kernelPml4 = m.kernelPml4
  upper : ∀ s ∈ spaces, ∀ i, hhdmPml4Index ≤ i → m'.mem s i = m.mem s i

theorem Steady.refl (m : Memory) (spaces : Finset Nat) : Steady m m spaces :=
  ⟨rfl, rfl, fun _ _ _ _ => rfl⟩

theorem Steady.trans {m m' m'' : Memory} {spaces : Finset Nat}
    (h : Steady m m' spaces) (h' : Steady m' m'' spaces) : Steady m m'' spaces where
  nx := h'.nx.trans h.nx
  pml4 := h'.pml4.trans h.pml4
  upper s hs i hi := (h'.upper s hs i hi).trans (h.upper s hs i hi)

/-- The user entries of the given address spaces are the same in both states. -/
def SameEntries (m m' : Memory) (spaces : Finset Nat) : Prop :=
  ∀ s ∈ spaces, ∀ p, UserPos p → entryAt m'.mem s p = entryAt m.mem s p

/-- The only changed user entry is the one at the given position. -/
def UpdatedEntry (m m' : Memory) (spaces : Finset Nat) (s : Nat) (q : List Nat)
    (e : Option Nat) : Prop :=
  ∀ s' ∈ spaces, ∀ p, UserPos p →
    entryAt m'.mem s' p = if s' = s ∧ p = q then e else entryAt m.mem s' p

variable {m : Memory} {a : Account} {free : List Nat}

theorem tableAt_of_ne_nil {mem : Nat → Nat → Nat} (s : Nat) {p : List Nat} (hp : p ≠ []) :
    tableAt mem s p = (entryAt mem s p).map tableOf :=
  TableTree.tableAt_of_ne_nil s hp

/-- The entry below a known table is read there. -/
theorem entryAt_of_table {mem : Nat → Nat → Nat} {s : Nat} {q : List Nat} {t : Nat}
    (ht : tableAt mem s q = some t) (i : Nat) :
    entryAt mem s (q ++ [i]) = if isPresent (mem t i) then some (mem t i) else none := by
  unfold tableAt at ht
  rw [entryAt, TableTree.entryAt_snoc, ht]
  rfl

/-- Below a missing table there is no entry. -/
theorem entryAt_of_no_table {mem : Nat → Nat → Nat} {s : Nat} {q : List Nat}
    (ht : tableAt mem s q = none) (i : Nat) : entryAt mem s (q ++ [i]) = none := by
  unfold tableAt at ht
  rw [entryAt, TableTree.entryAt_snoc, ht]
  rfl

/-- Equal entries give equal tables. -/
theorem SameEntries.tableAt {m' : Memory} {spaces : Finset Nat}
    (h : SameEntries m m' spaces) {s : Nat} (hs : s ∈ spaces) {p : List Nat}
    (hp : UserPos p) : tableAt m'.mem s p = Mm.tableAt m.mem s p := by
  by_cases hnil : p = []
  · subst hnil
    rfl
  · rw [tableAt_of_ne_nil s hnil, tableAt_of_ne_nil s hnil, h s hs p hp]

/-- An address space is the frame of its own top-level table. -/
theorem Ledger.space_owned (h : Ledger m a free) {s : Nat} (hs : s ∈ a.spaces) :
    s ∈ a.boot ∧ s ∉ free ∧ s ∉ a.held :=
  h.owned s hs [] userPos_nil s rfl

/-- A frame that is free or held is at no position. -/
theorem Ledger.not_tableAt (h : Ledger m a free) {f : Nat} (hf : f ∈ free ∨ f ∈ a.held)
    {s : Nat} (hs : s ∈ a.spaces) {p : List Nat} (hp : UserPos p) :
    tableAt m.mem s p ≠ some f := by
  intro ht
  obtain ⟨_, hfree, hheld⟩ := h.owned s hs p hp f ht
  rcases hf with hf | hf
  · exact hfree hf
  · exact hheld hf

/-- Writing frames that are at no position of a space changes no entry of it. -/
theorem sameEntries_of_mem {m' : Memory}
    (hmem : ∀ f, (∃ s ∈ a.spaces, ∃ p, UserPos p ∧ p.length < 4 ∧ tableAt m.mem s p = some f) →
      m'.mem f = m.mem f) :
    SameEntries m m' a.spaces := by
  intro s hs p hp
  refine TableTree.entryAt_congr UserPos UserPos.of_snoc ?_ p hp
  intro q i t hq ht
  have hlen : q.length < 4 := by
    have := hq.length_le
    rw [List.length_append, List.length_singleton] at this
    omega
  rw [hmem t ⟨s, hs, q, UserPos.of_snoc q i hq, hlen, ht⟩]

/-- A ledger survives a change of state that keeps every entry, once the
places of the frames have been checked. -/
theorem Ledger.of_sameEntries (h : Ledger m a free) {m' : Memory} {held : Finset Nat}
    {free' : List Nat} (hsame : SameEntries m m' a.spaces)
    (hsteady : Steady m m' a.spaces) (halloc : Allocator m' free')
    (hplace : ∀ f, (f ∈ free' ∨ f ∈ held) ↔ (f ∈ free ∨ f ∈ a.held))
    (hdisj : ∀ f ∈ held, f ∉ free')
    (houtside : ∀ f, f ∉ a.boot → m'.mem f = m.mem f) :
    Ledger m' { a with held := held } free' where
  allocator := halloc
  frame := h.frame
  free_boot f hf := by
    rcases (hplace f).mp (Or.inl hf) with hf | hf
    · exact h.free_boot f hf
    · exact h.held_boot f hf
  held_boot f hf := by
    rcases (hplace f).mp (Or.inr hf) with hf | hf
    · exact h.free_boot f hf
    · exact h.held_boot f hf
  held_free := hdisj
  owned s hs p hp f ht := by
    rw [hsame.tableAt hs hp] at ht
    obtain ⟨hboot, hfree, hheld⟩ := h.owned s hs p hp f ht
    have hnone : ¬ (f ∈ free' ∨ f ∈ held) := fun hf =>
      ((hplace f).mp hf).elim hfree hheld
    rw [not_or] at hnone
    exact ⟨hboot, hnone.1, hnone.2⟩
  unique s hs s' hs' p p' hp hp' f ht ht' := by
    rw [hsame.tableAt hs hp] at ht
    rw [hsame.tableAt hs' hp'] at ht'
    exact h.unique s hs s' hs' p p' hp hp' f ht ht'
  covered f hf := by
    rcases h.covered f hf with hfree | hheld | ⟨s, hs, p, hp, ht⟩
    · rcases (hplace f).mpr (Or.inl hfree) with h' | h'
      · exact Or.inl h'
      · exact Or.inr (Or.inl h')
    · rcases (hplace f).mpr (Or.inr hheld) with h' | h'
      · exact Or.inl h'
      · exact Or.inr (Or.inl h')
    · exact Or.inr (Or.inr ⟨s, hs, p, hp, by rw [hsame.tableAt hs hp]; exact ht⟩)
  tables s hs p hp hlen e he := by
    rw [hsame s hs p hp] at he
    exact h.tables s hs p hp hlen e he
  leaves s hs p hp hlen e he := by
    rw [hsame s hs p hp] at he
    rw [hsteady.nx]
    exact h.leaves s hs p hp hlen e he
  outside f hf := (houtside f hf).trans (h.outside f hf)
  kernel := by
    rw [hsteady.pml4]
    exact h.kernel
  upper s hs i hi := by
    rw [hsteady.upper s hs i hi, hsteady.pml4]
    exact h.upper s hs i hi

/-! ## Moves between the allocator and a caller -/

/-- Allocation moves the first free frame into the caller's hands. -/
theorem Ledger.alloc {f : Nat} {fs : List Nat} (h : Ledger m a (f :: fs)) :
    Ledger (popFree m) { a with held := insert f a.held } fs ∧
      SameEntries m (popFree m) a.spaces ∧ Steady m (popFree m) a.spaces := by
  have hhead : m.freeHead = f := h.allocator.list.1
  have hnot : f ∉ fs := (List.nodup_cons.mp h.allocator.nodup).1
  have hown : ∀ g, (∃ s ∈ a.spaces, ∃ p, UserPos p ∧ p.length < 4 ∧
      tableAt m.mem s p = some g) → (popFree m).mem g = m.mem g := by
    rintro g ⟨s, hs, p, hp, _, ht⟩
    refine popFree_mem_of_ne ?_
    rw [hhead]
    rintro rfl
    exact h.not_tableAt (Or.inl (List.mem_cons_self ..)) hs hp ht
  have hsame := sameEntries_of_mem hown
  have hsteady : Steady m (popFree m) a.spaces := by
    refine ⟨rfl, rfl, fun s hs i _ => ?_⟩
    rw [hown s ⟨s, hs, [], userPos_nil, by decide, rfl⟩]
  refine ⟨h.of_sameEntries hsame hsteady h.allocator.pop ?_ ?_ ?_, hsame, hsteady⟩
  · intro g
    simp only [List.mem_cons, Finset.mem_insert]
    tauto
  · intro g hg
    rcases Finset.mem_insert.mp hg with rfl | hg
    · exact hnot
    · exact fun hfs => h.held_free g hg (List.mem_cons_of_mem f hfs)
  · intro g hg
    refine popFree_mem_of_ne ?_
    rw [hhead]
    rintro rfl
    exact hg (h.free_boot g (List.mem_cons_self ..))

/-- Release moves a held frame to the front of the free list. -/
theorem Ledger.release (h : Ledger m a free) {f : Nat} (hf : f ∈ a.held) :
    Ledger (pushFree m f) { a with held := a.held.erase f } (f :: free) ∧
      SameEntries m (pushFree m f) a.spaces ∧ Steady m (pushFree m f) a.spaces := by
  have hown : ∀ g, (∃ s ∈ a.spaces, ∃ p, UserPos p ∧ p.length < 4 ∧
      tableAt m.mem s p = some g) → (pushFree m f).mem g = m.mem g := by
    rintro g ⟨s, hs, p, hp, _, ht⟩
    refine pushFree_mem_of_ne ?_
    rintro rfl
    exact h.not_tableAt (Or.inr hf) hs hp ht
  have hsame := sameEntries_of_mem hown
  have hsteady : Steady m (pushFree m f) a.spaces := by
    refine ⟨rfl, rfl, fun s hs i _ => ?_⟩
    rw [hown s ⟨s, hs, [], userPos_nil, by decide, rfl⟩]
  have hne : f ≠ 0 := (h.frame f (h.held_boot f hf)).ne_zero
  refine ⟨h.of_sameEntries hsame hsteady
    (h.allocator.push hne (h.held_free f hf)) ?_ ?_ ?_, hsame, hsteady⟩
  · intro g
    simp only [List.mem_cons, Finset.mem_erase]
    by_cases hg : g = f
    · subst hg
      tauto
    · tauto
  · intro g hg
    obtain ⟨hgf, hg⟩ := Finset.mem_erase.mp hg
    rw [List.mem_cons, not_or]
    exact ⟨hgf, h.held_free g hg⟩
  · intro g hg
    refine pushFree_mem_of_ne ?_
    rintro rfl
    exact hg (h.held_boot g hf)

/-- A frame that holds data: it is held by a caller or mapped by a leaf. -/
def DataFrame (m : Memory) (a : Account) (f : Nat) : Prop :=
  f ∈ a.held ∨ ∃ s ∈ a.spaces, ∃ p, UserPos p ∧ p.length = 4 ∧ tableAt m.mem s p = some f

/-- Writing data to a data frame moves nothing. -/
theorem Ledger.scribble (h : Ledger m a free) {f : Nat} (hf : DataFrame m a f)
    (words : Nat → Nat) :
    let m' := { m with mem := Function.update m.mem f words }
    Ledger m' a free ∧ SameEntries m m' a.spaces ∧ Steady m m' a.spaces := by
  intro m'
  have hboot : f ∈ a.boot ∧ f ∉ free := by
    rcases hf with hf | ⟨s, hs, p, hp, _, ht⟩
    · exact ⟨h.held_boot f hf, h.held_free f hf⟩
    · obtain ⟨h1, h2, _⟩ := h.owned s hs p hp f ht
      exact ⟨h1, h2⟩
  have hmem : ∀ g, g ≠ f → m'.mem g = m.mem g := by
    intro g hg
    exact Function.update_of_ne hg words m.mem
  have hown : ∀ g, (∃ s ∈ a.spaces, ∃ p, UserPos p ∧ p.length < 4 ∧
      tableAt m.mem s p = some g) → m'.mem g = m.mem g := by
    rintro g ⟨s, hs, p, hp, hlen, ht⟩
    apply hmem
    rintro rfl
    rcases hf with hf | ⟨s', hs', p', hp', hlen', ht'⟩
    · exact h.not_tableAt (Or.inr hf) hs hp ht
    · obtain ⟨_, rfl⟩ := h.unique s hs s' hs' p p' hp hp' g ht ht'
      omega
  have hsame := sameEntries_of_mem hown
  have hsteady : Steady m m' a.spaces := by
    refine ⟨rfl, rfl, fun s hs i _ => ?_⟩
    rw [hown s ⟨s, hs, [], userPos_nil, by decide, rfl⟩]
  have halloc : Allocator m' free := by
    refine ⟨h.allocator.list.congr (fun g hg => ?_), h.allocator.nodup⟩
    rw [hmem g (fun heq => hboot.2 (heq ▸ hg))]
  refine ⟨?_, hsame, hsteady⟩
  exact h.of_sameEntries hsame hsteady halloc (fun _ => Iff.rfl) h.held_free
    (fun g hg => hmem g (fun heq => hg (heq ▸ hboot.1)))

/-! ## Moves between a caller and an address space -/

/-- After a change of one entry, the frame at each position. -/
theorem UpdatedEntry.tableAt {m' : Memory} {spaces : Finset Nat} {s : Nat} {q : List Nat}
    {e : Option Nat} (h : UpdatedEntry m m' spaces s q e) (hq : q ≠ [])
    {s' : Nat} (hs : s' ∈ spaces) {p : List Nat} (hp : UserPos p) :
    tableAt m'.mem s' p =
      if s' = s ∧ p = q then e.map tableOf else Mm.tableAt m.mem s' p := by
  by_cases hnil : p = []
  · subst hnil
    rw [if_neg (fun hcon => hq hcon.2.symm)]
    rfl
  · rw [tableAt_of_ne_nil s' hnil, tableAt_of_ne_nil s' hnil, h s' hs p hp]
    split <;> rfl

/-- A store to a table of one address space leaves the others alone. -/
theorem Ledger.store_other (h : Ledger m a free) {s : Nat} (hs : s ∈ a.spaces)
    {q : List Nat} {i t : Nat} (hq : UserPos (q ++ [i]))
    (ht : tableAt m.mem s q = some t) (word : Nat) {s' : Nat} (hs' : s' ∈ a.spaces)
    (hne : s' ≠ s) {p : List Nat} (hp : UserPos p) :
    entryAt (m.store t i word).mem s' p = entryAt m.mem s' p := by
  refine TableTree.entryAt_congr UserPos UserPos.of_snoc ?_ p hp
  intro r j u hr hu
  refine m.store_mem_of_ne (Or.inl ?_)
  rintro rfl
  exact hne (h.unique s' hs' s hs r q (UserPos.of_snoc r j hr) (UserPos.of_snoc q i hq)
    u hu ht).1

/-- A table sits at one position of its address space. -/
theorem Ledger.table_unique (h : Ledger m a free) {s : Nat} (hs : s ∈ a.spaces)
    {q : List Nat} {i t : Nat} (hq : UserPos (q ++ [i])) (ht : tableAt m.mem s q = some t) :
    ∀ p, UserPos (p ++ [i]) → tableAt m.mem s p = some t → p = q :=
  fun p hp htp => (h.unique s hs s hs p q (UserPos.of_snoc p i hp) (UserPos.of_snoc q i hq)
    t htp ht).2

/-- A store below the kernel half of a table of an address space. -/
theorem Ledger.store_steady (h : Ledger m a free) {s : Nat} (hs : s ∈ a.spaces)
    {q : List Nat} {i t : Nat} (hq : UserPos (q ++ [i]))
    (ht : tableAt m.mem s q = some t) (word : Nat) :
    Steady m (m.store t i word) a.spaces := by
  refine ⟨rfl, rfl, fun s' hs' j hj => ?_⟩
  refine m.store_mem_of_ne ?_
  by_cases hst : s' = t
  · right
    rintro rfl
    -- a top-level table is found at the empty position only
    have hnil : q = [] := by
      have := h.unique s hs s' hs' q [] (UserPos.of_snoc q j hq) userPos_nil t ht
        (by rw [hst]; rfl)
      exact this.2
    subst hnil
    have := hq.top j (by simp)
    omega
  · exact Or.inl hst

/-- An entry that may stand at a position of the given length. -/
def GoodEntry (nx : Bool) (len f e : Nat) : Prop :=
  (len < 4 ∧ e = tableEntry f) ∨
    (len = 4 ∧ ∃ flags, e = leafEntry f flags ∧
      (nx = true → hasFlag flags pageRw = true → hasFlag flags pageNx = true))

theorem GoodEntry.present {nx : Bool} {len f e : Nat} (h : GoodEntry nx len f e) :
    isPresent e = true := by
  rcases h with ⟨_, rfl⟩ | ⟨_, flags, rfl, _⟩
  · exact hasFlag_tableEntry_present f
  · exact hasFlag_leafEntry_present f flags

theorem GoodEntry.tableOf {nx : Bool} {len f e : Nat} (h : GoodEntry nx len f e)
    (hf : Frame f) : tableOf e = f := by
  rcases h with ⟨_, rfl⟩ | ⟨_, flags, rfl, _⟩
  · exact tableOf_tableEntry hf
  · exact tableOf_leafEntry hf flags

/-- Storing an entry for a held frame moves the frame to that position. -/
theorem Ledger.install (h : Ledger m a free) {s : Nat} (hs : s ∈ a.spaces)
    {q : List Nat} {i t f e : Nat} (hq : UserPos (q ++ [i]))
    (ht : tableAt m.mem s q = some t) (hempty : isPresent (m.mem t i) = false)
    (hf : f ∈ a.held) (he : GoodEntry m.nxSupported (q.length + 1) f e)
    (hzero : q.length + 1 < 4 → ∀ k, m.mem f k = 0) :
    let m' := m.store t i e
    Ledger m' { a with held := a.held.erase f } free ∧
      UpdatedEntry m m' a.spaces s (q ++ [i]) (some e) ∧ Steady m m' a.spaces := by
  intro m'
  have hframe : Frame f := h.frame f (h.held_boot f hf)
  have hqpos : UserPos q := UserPos.of_snoc q i hq
  have hft : f ≠ t := by
    rintro rfl
    exact h.not_tableAt (Or.inr hf) hs hqpos ht
  have hupd : UpdatedEntry m m' a.spaces s (q ++ [i]) (some e) := by
    intro s' hs' p hp
    by_cases hss : s' = s
    · subst hss
      have hfresh : ∀ j, UserPos (q ++ [i] ++ [j]) → ∀ k,
          isPresent (m'.mem (Mm.tableOf e) k) = false := by
        intro j hj k
        have hlen : q.length + 1 < 4 := by
          have := hj.length_le
          simp only [List.length_append, List.length_singleton] at this
          omega
        rw [he.tableOf hframe, m.store_mem_of_ne (Or.inl hft), hzero hlen k]
        exact hasFlag_zero _
      have hinst : entryAt m'.mem s' p =
          if p = q ++ [i] then some e else entryAt m.mem s' p :=
        TableTree.entryAt_install UserPos UserPos.of_snoc
          (fun u j huj => m.store_mem_of_ne huj) (m.store_mem_same t i e) he.present ht hempty
          (h.table_unique hs hq ht) hq hfresh p hp
      rw [hinst]
      simp
    · rw [if_neg (fun hcon => hss hcon.1)]
      exact h.store_other hs hq ht e hs' hss hp
  have hsteady := h.store_steady hs hq ht e
  have hne : q ++ [i] ≠ [] := by simp
  have htab := fun {s' : Nat} (hs' : s' ∈ a.spaces) {p : List Nat} (hp : UserPos p) =>
    hupd.tableAt hne hs' hp
  rw [Option.map_some, he.tableOf hframe] at htab
  have htfree : t ∈ a.boot ∧ t ∉ free ∧ t ∉ a.held := h.owned s hs q hqpos t ht
  refine ⟨?_, hupd, hsteady⟩
  exact {
    allocator := h.allocator.store htfree.2.1 i e
    frame := h.frame
    free_boot := h.free_boot
    held_boot := fun g hg => h.held_boot g (Finset.mem_of_mem_erase hg)
    held_free := fun g hg => h.held_free g (Finset.mem_of_mem_erase hg)
    owned := by
      intro s' hs' p hp g hg
      rw [htab hs' hp] at hg
      split at hg
      next =>
        cases hg
        exact ⟨h.held_boot f hf, h.held_free f hf, Finset.notMem_erase f a.held⟩
      next =>
        obtain ⟨h1, h2, h3⟩ := h.owned s' hs' p hp g hg
        exact ⟨h1, h2, fun hcon => h3 (Finset.mem_of_mem_erase hcon)⟩
    unique := by
      intro s₁ hs₁ s₂ hs₂ p₁ p₂ hp₁ hp₂ g hg₁ hg₂
      rw [htab hs₁ hp₁] at hg₁
      rw [htab hs₂ hp₂] at hg₂
      split at hg₁
      next heq₁ =>
        cases hg₁
        split at hg₂
        next heq₂ => exact ⟨heq₁.1.trans heq₂.1.symm, heq₁.2.trans heq₂.2.symm⟩
        next => exact absurd hg₂ (h.not_tableAt (Or.inr hf) hs₂ hp₂)
      next =>
        split at hg₂
        next =>
          cases hg₂
          exact absurd hg₁ (h.not_tableAt (Or.inr hf) hs₁ hp₁)
        next => exact h.unique s₁ hs₁ s₂ hs₂ p₁ p₂ hp₁ hp₂ g hg₁ hg₂
    covered := by
      intro g hg
      by_cases hgf : g = f
      · subst hgf
        refine Or.inr (Or.inr ⟨s, hs, q ++ [i], hq, ?_⟩)
        rw [htab hs hq, if_pos ⟨rfl, rfl⟩]
      · rcases h.covered g hg with hg' | hg' | ⟨s', hs', p, hp, hgp⟩
        · exact Or.inl hg'
        · exact Or.inr (Or.inl (Finset.mem_erase.mpr ⟨hgf, hg'⟩))
        · refine Or.inr (Or.inr ⟨s', hs', p, hp, ?_⟩)
          rw [htab hs' hp, if_neg, hgp]
          rintro ⟨rfl, rfl⟩
          have habsent : entryAt m.mem s' (q ++ [i]) = none := by
            rw [entryAt_of_table ht, hempty]
            rfl
          rw [tableAt_of_ne_nil s' hne, habsent] at hgp
          cases hgp
    tables := by
      intro s' hs' p hp hlen w hw
      rw [hupd s' hs' p hp] at hw
      split at hw
      next heq =>
        cases hw
        rcases he with ⟨_, rfl⟩ | ⟨hlen', _⟩
        · exact ⟨f, hframe, rfl⟩
        · rw [heq.2, List.length_append, List.length_singleton] at hlen
          omega
      next => exact h.tables s' hs' p hp hlen w hw
    leaves := by
      intro s' hs' p hp hlen w hw
      rw [hupd s' hs' p hp] at hw
      split at hw
      next heq =>
        cases hw
        rcases he with ⟨hlen', _⟩ | ⟨_, flags, rfl, hwx⟩
        · rw [heq.2, List.length_append, List.length_singleton] at hlen
          omega
        · exact ⟨f, flags, hframe, rfl, hwx⟩
      next => exact h.leaves s' hs' p hp hlen w hw
    outside := by
      intro g hg
      rw [m.store_mem_frame (fun heq => hg (by rw [heq]; exact htfree.1))]
      exact h.outside g hg
    kernel := h.kernel
    upper := by
      intro s' hs' j hj
      rw [hsteady.upper s' hs' j hj]
      exact h.upper s' hs' j hj }

/-- Clearing a leaf moves the frame it maps into the caller's hands. -/
theorem Ledger.unmap (h : Ledger m a free) {s : Nat} (hs : s ∈ a.spaces)
    {q : List Nat} {i t : Nat} (hq : UserPos (q ++ [i])) (hlen : q.length = 3)
    (ht : tableAt m.mem s q = some t) (hpresent : isPresent (m.mem t i) = true) :
    let m' := m.store t i 0
    let f := tableOf (m.mem t i)
    Ledger m' { a with held := insert f a.held } free ∧
      UpdatedEntry m m' a.spaces s (q ++ [i]) none ∧ Steady m m' a.spaces ∧
      f ∉ a.held ∧ f ∈ a.boot := by
  intro m' f
  have hqpos : UserPos q := UserPos.of_snoc q i hq
  have hne : q ++ [i] ≠ [] := by simp
  have hfat : tableAt m.mem s (q ++ [i]) = some f := by
    rw [tableAt_of_ne_nil s hne, entryAt_of_table ht, hpresent]
    rfl
  obtain ⟨hfboot, hffree, hfheld⟩ := h.owned s hs _ hq f hfat
  have hupd : UpdatedEntry m m' a.spaces s (q ++ [i]) none := by
    intro s' hs' p hp
    by_cases hss : s' = s
    · subst hss
      have hlast : ∀ r, UserPos r → (q ++ [i]) <+: r → r = q ++ [i] := by
        intro r hr hpre
        refine (hpre.eq_of_length_le ?_).symm
        rw [List.length_append, List.length_singleton, hlen]
        exact hr.length_le
      have hgone : isPresent (m'.mem t i) = false := by
        rw [m.store_mem_same]
        exact hasFlag_zero _
      have hrem : entryAt m'.mem s' p =
          if p = q ++ [i] then none else entryAt m.mem s' p :=
        TableTree.entryAt_remove UserPos UserPos.of_snoc
          (fun u j huj => m.store_mem_of_ne huj) hgone ht
          (h.table_unique hs hq ht) hq hlast p hp
      rw [hrem]
      simp
    · rw [if_neg (fun hcon => hss hcon.1)]
      exact h.store_other hs hq ht 0 hs' hss hp
  have hsteady := h.store_steady hs hq ht 0
  have htab := fun {s' : Nat} (hs' : s' ∈ a.spaces) {p : List Nat} (hp : UserPos p) =>
    hupd.tableAt hne hs' hp
  rw [Option.map_none] at htab
  have htfree : t ∈ a.boot ∧ t ∉ free ∧ t ∉ a.held := h.owned s hs q hqpos t ht
  refine ⟨?_, hupd, hsteady, hfheld, hfboot⟩
  exact {
    allocator := h.allocator.store htfree.2.1 i 0
    frame := h.frame
    free_boot := h.free_boot
    held_boot := by
      intro g hg
      rcases Finset.mem_insert.mp hg with rfl | hg
      · exact hfboot
      · exact h.held_boot g hg
    held_free := by
      intro g hg
      rcases Finset.mem_insert.mp hg with rfl | hg
      · exact hffree
      · exact h.held_free g hg
    owned := by
      intro s' hs' p hp g hg
      rw [htab hs' hp] at hg
      split at hg
      next => cases hg
      next hpos =>
        obtain ⟨h1, h2, h3⟩ := h.owned s' hs' p hp g hg
        refine ⟨h1, h2, ?_⟩
        rw [Finset.mem_insert, not_or]
        refine ⟨?_, h3⟩
        rintro rfl
        exact hpos (h.unique s' hs' s hs p _ hp hq f hg hfat)
    unique := by
      intro s₁ hs₁ s₂ hs₂ p₁ p₂ hp₁ hp₂ g hg₁ hg₂
      rw [htab hs₁ hp₁] at hg₁
      rw [htab hs₂ hp₂] at hg₂
      split at hg₁
      next => cases hg₁
      next =>
        split at hg₂
        next => cases hg₂
        next => exact h.unique s₁ hs₁ s₂ hs₂ p₁ p₂ hp₁ hp₂ g hg₁ hg₂
    covered := by
      intro g hg
      rcases h.covered g hg with hg' | hg' | ⟨s', hs', p, hp, hgp⟩
      · exact Or.inl hg'
      · exact Or.inr (Or.inl (Finset.mem_insert_of_mem hg'))
      · by_cases hpos : s' = s ∧ p = q ++ [i]
        · obtain ⟨rfl, rfl⟩ := hpos
          rw [hfat] at hgp
          cases hgp
          exact Or.inr (Or.inl (Finset.mem_insert_self f a.held))
        · refine Or.inr (Or.inr ⟨s', hs', p, hp, ?_⟩)
          rw [htab hs' hp, if_neg hpos, hgp]
    tables := by
      intro s' hs' p hp hlen' w hw
      rw [hupd s' hs' p hp] at hw
      split at hw
      next => cases hw
      next => exact h.tables s' hs' p hp hlen' w hw
    leaves := by
      intro s' hs' p hp hlen' w hw
      rw [hupd s' hs' p hp] at hw
      split at hw
      next => cases hw
      next => exact h.leaves s' hs' p hp hlen' w hw
    outside := by
      intro g hg
      rw [m.store_mem_frame (fun heq => hg (by rw [heq]; exact htfree.1))]
      exact h.outside g hg
    kernel := h.kernel
    upper := by
      intro s' hs' j hj
      rw [hsteady.upper s' hs' j hj]
      exact h.upper s' hs' j hj }

/-! ## Opening and closing address spaces -/

/-- A held frame with an empty user half becomes an address space. -/
theorem Ledger.newSpace (h : Ledger m a free) {f : Nat} (hf : f ∈ a.held)
    (hlower : ∀ i < hhdmPml4Index, m.mem f i = 0)
    (hupper : ∀ i, hhdmPml4Index ≤ i → m.mem f i = 0 ∨ m.mem f i = a.base m.kernelPml4 i) :
    Ledger m { a with held := a.held.erase f, spaces := insert f a.spaces } free ∧
      ∀ p, UserPos p → entryAt m.mem f p = none := by
  have hempty : ∀ p, UserPos p → entryAt m.mem f p = none := by
    intro p hp
    cases p with
    | nil => rfl
    | cons i p =>
        have hi : entryAt m.mem f [i] = none := by
          have hword : m.mem f i = 0 := hlower i (hp.top i (by simp))
          simp [TableTree.entryAt, TableTree.slot, hword]
        exact TableTree.entryAt_below_absent (i :: p) hi (by simp) ⟨p, rfl⟩
  have htab : ∀ p, UserPos p → ∀ g, tableAt m.mem f p = some g → p = [] ∧ g = f := by
    intro p hp g hg
    by_cases hnil : p = []
    · subst hnil
      cases hg
      exact ⟨rfl, rfl⟩
    · rw [tableAt_of_ne_nil f hnil, hempty p hp] at hg
      cases hg
  have hfs : ∀ s ∈ a.spaces, ∀ p, UserPos p → tableAt m.mem s p ≠ some f :=
    fun s hs p hp => h.not_tableAt (Or.inr hf) hs hp
  refine ⟨?_, hempty⟩
  exact {
    allocator := h.allocator
    frame := h.frame
    free_boot := h.free_boot
    held_boot := fun g hg => h.held_boot g (Finset.mem_of_mem_erase hg)
    held_free := fun g hg => h.held_free g (Finset.mem_of_mem_erase hg)
    owned := by
      intro s hs p hp g hg
      rcases Finset.mem_insert.mp hs with rfl | hs
      · obtain ⟨_, rfl⟩ := htab p hp g hg
        exact ⟨h.held_boot g hf, h.held_free g hf, Finset.notMem_erase g a.held⟩
      · obtain ⟨h1, h2, h3⟩ := h.owned s hs p hp g hg
        exact ⟨h1, h2, fun hcon => h3 (Finset.mem_of_mem_erase hcon)⟩
    unique := by
      intro s hs s' hs' p p' hp hp' g hg hg'
      rcases Finset.mem_insert.mp hs with hsf | hs
      · rw [hsf] at hg
        obtain ⟨hp0, hgf⟩ := htab p hp g hg
        rcases Finset.mem_insert.mp hs' with hsf' | hs'
        · rw [hsf'] at hg'
          exact ⟨hsf.trans hsf'.symm, hp0.trans (htab p' hp' g hg').1.symm⟩
        · exact absurd (hgf ▸ hg') (hfs s' hs' p' hp')
      · rcases Finset.mem_insert.mp hs' with hsf' | hs'
        · rw [hsf'] at hg'
          exact absurd ((htab p' hp' g hg').2 ▸ hg) (hfs s hs p hp)
        · exact h.unique s hs s' hs' p p' hp hp' g hg hg'
    covered := by
      intro g hg
      by_cases hgf : g = f
      · subst hgf
        exact Or.inr (Or.inr ⟨g, Finset.mem_insert_self g a.spaces, [], userPos_nil, rfl⟩)
      · rcases h.covered g hg with hg' | hg' | ⟨s, hs, p, hp, hgp⟩
        · exact Or.inl hg'
        · exact Or.inr (Or.inl (Finset.mem_erase.mpr ⟨hgf, hg'⟩))
        · exact Or.inr (Or.inr ⟨s, Finset.mem_insert_of_mem hs, p, hp, hgp⟩)
    tables := by
      intro s hs p hp hlen e he
      rcases Finset.mem_insert.mp hs with rfl | hs
      · rw [hempty p hp] at he
        cases he
      · exact h.tables s hs p hp hlen e he
    leaves := by
      intro s hs p hp hlen e he
      rcases Finset.mem_insert.mp hs with rfl | hs
      · rw [hempty p hp] at he
        cases he
      · exact h.leaves s hs p hp hlen e he
    outside := h.outside
    kernel := h.kernel
    upper := by
      intro s hs i hi
      rcases Finset.mem_insert.mp hs with rfl | hs
      · exact hupper i hi
      · exact h.upper s hs i hi }

/-- Giving up an address space puts all its frames into the caller's hands. -/
theorem Ledger.close (h : Ledger m a free) {s : Nat} (hs : s ∈ a.spaces) {frames : Finset Nat}
    (hframes : ∀ f, f ∈ frames ↔ ∃ p, UserPos p ∧ tableAt m.mem s p = some f) :
    Ledger m { a with held := a.held ∪ frames, spaces := a.spaces.erase s } free where
  allocator := h.allocator
  frame := h.frame
  free_boot := h.free_boot
  held_boot f hf := by
    rcases Finset.mem_union.mp hf with hf | hf
    · exact h.held_boot f hf
    · obtain ⟨p, hp, ht⟩ := (hframes f).mp hf
      exact (h.owned s hs p hp f ht).1
  held_free f hf := by
    rcases Finset.mem_union.mp hf with hf | hf
    · exact h.held_free f hf
    · obtain ⟨p, hp, ht⟩ := (hframes f).mp hf
      exact (h.owned s hs p hp f ht).2.1
  owned s' hs' p hp f ht := by
    obtain ⟨hne, hs'⟩ := Finset.mem_erase.mp hs'
    obtain ⟨h1, h2, h3⟩ := h.owned s' hs' p hp f ht
    refine ⟨h1, h2, ?_⟩
    rw [Finset.mem_union, not_or]
    refine ⟨h3, fun hf => ?_⟩
    obtain ⟨q, hq, htq⟩ := (hframes f).mp hf
    exact hne (h.unique s' hs' s hs p q hp hq f ht htq).1
  unique s₁ hs₁ s₂ hs₂ :=
    h.unique s₁ (Finset.mem_of_mem_erase hs₁) s₂ (Finset.mem_of_mem_erase hs₂)
  covered f hf := by
    rcases h.covered f hf with hf' | hf' | ⟨s', hs', p, hp, ht⟩
    · exact Or.inl hf'
    · exact Or.inr (Or.inl (Finset.mem_union_left _ hf'))
    · by_cases hss : s' = s
      · subst hss
        exact Or.inr (Or.inl (Finset.mem_union_right _ ((hframes f).mpr ⟨p, hp, ht⟩)))
      · exact Or.inr (Or.inr ⟨s', Finset.mem_erase.mpr ⟨hss, hs'⟩, p, hp, ht⟩)
  tables s' hs' := h.tables s' (Finset.mem_of_mem_erase hs')
  leaves s' hs' := h.leaves s' (Finset.mem_of_mem_erase hs')
  outside := h.outside
  kernel := h.kernel
  upper s' hs' := h.upper s' (Finset.mem_of_mem_erase hs')

end Mm
end Nyxis
