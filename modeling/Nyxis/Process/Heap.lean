import Nyxis.Process.Pages
import Nyxis.Process.Lifecycle

/-!
# The heap of a process

A spawned process has an empty heap behind its image, and {lit}`umem_brk` moves the
end of it up and down.  Between two heap calls the program may write to its pages
and the rest of the kernel may take and give back frames, so that an allocation can
fail at any point of a later call.

Main results:

- Definition {lit}`HeapOk`: the bounds of a heap and the pages that are mapped for it.
- Theorem {lit}`umemBrk_spec`: what one heap call does, whether it succeeds or not.
- Theorem {lit}`heap_invariant`: the heap of every spawned process after every run of
  heap calls.
-/

namespace Nyxis
namespace Process

open Mm

variable {boot : Finset Nat} {base : Nat → Nat → Nat} {extra : Finset Nat}
  {k : Kernel} {l : List Nat}

/-! ## The invariant -/

/-- The heap of an address space: it starts at a page between the image and the stack
and is at most {lit}`NX_HEAP_MAX_TOTAL` long, the pages mapped between its start and
the guard page are those up to its end, and these are writable user pages that hold no
code. -/
structure HeapOk (m : Memory) (s start brk : Nat) : Prop where
  aligned : start % pageSize = 0
  lower : userElfMinVaddr ≤ start
  upper : start ≤ userElfMaxVaddr
  start_le : start ≤ brk
  brk_le : brk ≤ start + heapMaxTotal
  mapped : ∀ v, UserPage v → Within start userStackGuard v →
    ((translate m.mem s v).isSome ↔ v < alignUp brk pageSize)
  flags : ∀ v, UserPage v → Within start userStackGuard v →
    ∀ f flags, translate m.mem s v = some (f, flags) → hasFlag flags pageUser = true ∧
      hasFlag flags pageRw = true ∧ (m.nxSupported = true → hasFlag flags pageNx = true)

/-- What a heap call does to the pages of the address space: pages outside the heap
region are left alone, pages that stay mapped keep their frame and its words, and
pages that are new are zero. -/
structure PagesKept (m m' : Memory) (s start : Nat) : Prop where
  outside : ∀ v, UserPage v → ¬ Within start userStackGuard v →
    translate m'.mem s v = translate m.mem s v
  kept : ∀ v, UserPage v → ∀ f flags g flags', translate m.mem s v = some (f, flags) →
    translate m'.mem s v = some (g, flags') → g = f ∧ flags' = flags ∧ m'.mem f = m.mem f
  fresh : ∀ v, UserPage v → translate m.mem s v = none →
    ∀ f flags, translate m'.mem s v = some (f, flags) → ∀ i, m'.mem f i = 0

variable {m m' : Memory} {a : Account} {free : List Nat} {s : Nat}

/-- The flags of a heap page. -/
theorem dataPage_flags {f : Nat} (hf : Frame f) (nx : Bool) :
    hasFlag (flagsOf (leafEntry f (effectiveFlags nx dataFlags))) pageUser = true ∧
    hasFlag (flagsOf (leafEntry f (effectiveFlags nx dataFlags))) pageRw = true ∧
    (nx = true → hasFlag (flagsOf (leafEntry f (effectiveFlags nx dataFlags))) pageNx = true) := by
  rw [hasFlag_flagsOf_user, hasFlag_flagsOf_rw, hasFlag_flagsOf_nx, hasFlag_leafEntry_user,
    hasFlag_leafEntry_rw hf, hasFlag_leafEntry_nx hf]
  cases nx <;> decide

/-- A call that spares all pages but some of the heap, which it maps with cleared
frames or unmaps. -/
theorem Spared.pagesKept {P : Nat → Prop} {start : Nat} (h : Spared m m' a s P)
    (hled : Ledger m a free) (hs : s ∈ a.spaces)
    (hP : ∀ v, UserPage v → P v → Within start userStackGuard v)
    (hchange : ∀ v, UserPage v → P v → leafAt m' s v = none ∨ (leafAt m s v = none ∧
      ∀ e, leafAt m' s v = some e → ∀ i, m'.mem (tableOf e) i = 0)) :
    PagesKept m m' s start := by
  have hbefore := fun {v : Nat} (hv : UserPage v) => translate_leafAt ⟨free, hled⟩ hs hv
  have hafter := fun {v : Nat} (hv : UserPage v) => translate_leafAt h.ledger hs hv
  refine ⟨?_, ?_, ?_⟩
  · intro v hv hout
    rw [hafter hv, hbefore hv, h.leaves v hv (fun hcon => hout (hP v hv hcon))]
  · intro v hv f flags g flags' hf hg
    rw [hbefore hv] at hf
    rw [hafter hv] at hg
    by_cases hPv : P v
    · rcases hchange v hv hPv with hnone | ⟨hnone, _⟩
      · rw [hnone] at hg
        cases hg
      · rw [hnone] at hf
        cases hf
    · rw [h.leaves v hv hPv] at hg
      cases he : leafAt m s v with
      | none =>
          rw [he] at hf
          cases hf
      | some e =>
          rw [he] at hf hg
          cases hf
          cases hg
          exact ⟨rfl, rfl, h.data v hv hPv e he⟩
  · intro v hv hnone f flags hf
    rw [hbefore hv, Option.map_eq_none_iff] at hnone
    rw [hafter hv] at hf
    by_cases hPv : P v
    · rcases hchange v hv hPv with hgone | ⟨_, hzero⟩
      · rw [hgone] at hf
        cases hf
      · cases he : leafAt m' s v with
        | none =>
            rw [he] at hf
            cases hf
        | some e =>
            rw [he] at hf
            cases hf
            exact hzero e he
    · rw [h.leaves v hv hPv, hnone] at hf
      cases hf

/-! ## The heap after its end has moved -/

variable {start brk brk' : Nat}

/-- The end of a heap is far from the end of the user half. -/
theorem HeapOk.bounds (h : HeapOk m s start brk) :
    0 < start ∧ brk < 2 ^ 47 ∧ start < userStackGuard ∧
      alignUp brk pageSize ≤ userStackGuard := by
  have hmax : userElfMaxVaddr = 0x0000700000000000 := rfl
  have hmin : userElfMinVaddr = 0x10000 := rfl
  have hguard : userStackGuard = 0x00007FF7FFFEF000 := rfl
  have htotal : heapMaxTotal = 0x20000000 := rfl
  have hpage : pageSize = 4096 := rfl
  have h1 := h.lower
  have h2 := h.upper
  have h3 := h.brk_le
  obtain ⟨_, hlt, _⟩ := alignUp_spec (v := brk) (by omega)
  rw [hpage] at hlt ⊢
  refine ⟨by omega, by omega, by omega, by omega⟩

/-- The invariant does not depend on how the leaves came about. -/
theorem HeapOk.of_leaves (h : HeapOk m s start brk) (hled : ∃ free, Ledger m a free)
    (hled' : ∃ free, Ledger m' a free) (hs : s ∈ a.spaces)
    (hnx : m'.nxSupported = m.nxSupported) (hlo : start ≤ brk')
    (hhi : brk' ≤ start + heapMaxTotal)
    (hleaves : ∀ v, UserPage v → Within start userStackGuard v →
      (leafAt m' s v = none ∧ ¬ v < alignUp brk' pageSize) ∨
      (leafAt m' s v = leafAt m s v ∧ (v < alignUp brk' pageSize ↔ v < alignUp brk pageSize)) ∨
      (∃ f, Frame f ∧ leafAt m' s v = some (leafEntry f (effectiveFlags m.nxSupported dataFlags)) ∧
        v < alignUp brk' pageSize)) :
    HeapOk m' s start brk' where
  aligned := h.aligned
  lower := h.lower
  upper := h.upper
  start_le := hlo
  brk_le := hhi
  mapped v hv hin := by
    rw [translate_leafAt hled' hs hv, Option.isSome_map]
    rcases hleaves v hv hin with ⟨hnone, hout⟩ | ⟨hsame, hiff⟩ | ⟨f, _, hsome, hlt⟩
    · rw [hnone]
      simp [hout]
    · have hold := h.mapped v hv hin
      rw [translate_leafAt hled hs hv, Option.isSome_map] at hold
      rw [hsame, hold, hiff]
    · rw [hsome]
      simp [hlt]
  flags v hv hin f flags hf := by
    rw [translate_leafAt hled' hs hv] at hf
    rw [hnx]
    rcases hleaves v hv hin with ⟨hnone, _⟩ | ⟨hsame, _⟩ | ⟨g, hg, hsome, _⟩
    · rw [hnone] at hf
      cases hf
    · rw [hsame, ← translate_leafAt hled hs hv] at hf
      exact h.flags v hv hin f flags hf
    · rw [hsome] at hf
      cases hf
      exact dataPage_flags hg _

theorem HeapOk.grow (h : HeapOk m s start brk) (hled : ∃ free, Ledger m a free)
    (hs : s ∈ a.spaces) (hle : brk ≤ brk') (hhi : brk' ≤ start + heapMaxTotal)
    (hbrk : brk' < 2 ^ 63)
    (hg : Grew m m' a s (alignUp brk pageSize) (alignUp brk' pageSize)) :
    HeapOk m' s start brk' := by
  have hmono := alignUp_mono hle hbrk
  refine h.of_leaves hled hg.spared.ledger hs hg.spared.nx
    (Nat.le_trans h.start_le hle) hhi ?_
  intro v hv _
  by_cases hin : Within (alignUp brk pageSize) (alignUp brk' pageSize) v
  · obtain ⟨f, hf, hleaf, _⟩ := hg.fresh v hv hin
    exact Or.inr (Or.inr ⟨f, hf, hleaf, hin.2⟩)
  · refine Or.inr (Or.inl ⟨hg.spared.leaves v hv hin, ?_⟩)
    unfold Within at hin
    omega

theorem HeapOk.shrink (h : HeapOk m s start brk) (hled : ∃ free, Ledger m a free)
    (hs : s ∈ a.spaces) (hlo : start ≤ brk') (hle : brk' ≤ brk)
    (hsp : Spared m m' a s (Within (alignUp brk' pageSize) (alignUp brk pageSize)))
    (hnone : ∀ v, UserPage v → Within (alignUp brk' pageSize) (alignUp brk pageSize) v →
      leafAt m' s v = none) : HeapOk m' s start brk' := by
  have hbrk := h.bounds.2.1
  have hmono := alignUp_mono hle (show brk < 2 ^ 63 by omega)
  refine h.of_leaves hled hsp.ledger hs hsp.nx hlo (Nat.le_trans hle h.brk_le) ?_
  intro v hv _
  by_cases hin : Within (alignUp brk' pageSize) (alignUp brk pageSize) v
  · refine Or.inl ⟨hnone v hv hin, ?_⟩
    have := hin.1
    omega
  · refine Or.inr (Or.inl ⟨hsp.leaves v hv hin, ?_⟩)
    unfold Within at hin
    omega

theorem HeapOk.spared (h : HeapOk m s start brk) (hled : ∃ free, Ledger m a free)
    (hs : s ∈ a.spaces) (hsp : Spared m m' a s (fun _ => False)) : HeapOk m' s start brk :=
  h.of_leaves hled hsp.ledger hs hsp.nx h.start_le h.brk_le
    (fun v hv _ => Or.inr (Or.inl ⟨hsp.leaves v hv id, Iff.rfl⟩))

/-! ## One call -/

/-- The ways a heap call can end: it changed nothing, it failed and restored every
page, or it moved the end of the heap up or down. -/
inductive BrkOutcome (a : Account) (p : Nat) (k : Kernel) : Except Stop Nat → Kernel → Prop
  | stayed {r : Except Stop Nat} (hr : ∀ b, r = .ok b → (k.procs p).heapBrk = b) :
      BrkOutcome a p k r k
  | failed {e : Stop} {k' : Kernel} (hprocs : k'.procs = k.procs)
      (hsp : Spared k.memory k'.memory a (k.procs p).addrspace (fun _ => False)) :
      BrkOutcome a p k (.error e) k'
  | grew {brk : Nat} {k' : Kernel}
      (hprocs : k'.procs = Function.update k.procs p { k.procs p with heapBrk := brk })
      (hle : (k.procs p).heapBrk ≤ brk) (hhi : brk ≤ (k.procs p).heapStart + heapMaxTotal)
      (hbrk : brk < userStackGuard)
      (hg : Grew k.memory k'.memory a (k.procs p).addrspace
        (alignUp (k.procs p).heapBrk pageSize) (alignUp brk pageSize)) :
      BrkOutcome a p k (.ok brk) k'
  | shrank {brk : Nat} {k' : Kernel}
      (hprocs : k'.procs = Function.update k.procs p { k.procs p with heapBrk := brk })
      (hlo : (k.procs p).heapStart ≤ brk) (hle : brk ≤ (k.procs p).heapBrk)
      (hsp : Spared k.memory k'.memory a (k.procs p).addrspace
        (Within (alignUp brk pageSize) (alignUp (k.procs p).heapBrk pageSize)))
      (hnone : ∀ v, UserPage v →
        Within (alignUp brk pageSize) (alignUp (k.procs p).heapBrk pageSize) v →
        leafAt k'.memory (k.procs p).addrspace v = none) :
      BrkOutcome a p k (.ok brk) k'

/-- The state after a call that has moved the end of the heap. -/
def movedBrk (k : Kernel) (p brk : Nat) (m : Memory) : Kernel :=
  { k with
    memory := m
    procs := Function.update k.procs p { k.procs p with heapBrk := brk } }

/-- The common end of a growing and a shrinking call. -/
theorem brkEnd_post {p : Nat} {c : MemM Unit} {Q : Except Nstatus Unit → Memory → Prop}
    {R : Except Stop Nat → Kernel → Prop} (hc : Eff.Post c k.memory Q)
    (hok : ∀ m', Q (.ok ()) m' → R (.ok brk) (movedBrk k p brk m'))
    (herr : ∀ e m', Q (.error e) m' → R (.error (.status e)) { k with memory := m' }) :
    Eff.Post (do
      onMemory c
      setProc p (fun r => { r with heapBrk := brk })
      pure brk : KernelM Nat) k R := by
  unfold Eff.Post at hc
  cases hrun : c k.memory with
  | mk r m' =>
      rw [hrun] at hc
      cases r with
      | error e =>
          have hmem : onMemory c k = (.error (.status e), { k with memory := m' }) := by
            simp [onMemory, hrun]
          exact Eff.post_bind_error hmem (herr e m' hc)
      | ok u => exact Eff.post_bind_ok (onMemory_ok hrun) (Eff.post_of_eq rfl (hok m' hc))

theorem umemBrk_outcome {p : Nat} (hled : Ledger k.memory a free)
    (hs : (k.procs p).addrspace ∈ a.spaces)
    (h : HeapOk k.memory (k.procs p).addrspace (k.procs p).heapStart (k.procs p).heapBrk)
    (increment : Int) : Eff.Post (umemBrk p increment) k (BrkOutcome a p k) := by
  have hstop : ∀ e, Eff.Post (failWith e : KernelM Nat) k (BrkOutcome a p k) :=
    fun e => Eff.post_of_eq rfl (.stayed (by simp))
  obtain ⟨hpos, hbrk, _, _⟩ := h.bounds
  have hguard : userStackGuard = 0x00007FF7FFFEF000 := rfl
  have hend : userSpaceEnd = 0x0000800000000000 := rfl
  have hpage : pageSize = 4096 := rfl
  have htotal : heapMaxTotal = 0x20000000 := rfl
  have hgrow : heapGrowMaxPerCall = 0x10000000 := rfl
  have hstart := h.start_le
  have hbrkle := h.brk_le
  unfold umemBrk
  refine Eff.post_gets_bind ?_
  dsimp only
  split
  · exact hstop _
  split
  · exact Eff.post_of_eq rfl (.stayed (fun b hb => by cases hb; rfl))
  split
  next hup =>
    split
    · exact hstop _
    next hinc =>
    rw [Nat.mod_eq_of_lt (show (k.procs p).heapBrk + increment.toNat < 2 ^ 64 by omega)]
    obtain ⟨brk, hbrkeq⟩ : ∃ brk, brk = (k.procs p).heapBrk + increment.toNat := ⟨_, rfl⟩
    rw [← hbrkeq]
    split
    · exact hstop _
    next htot =>
    split
    · exact hstop _
    next hbelow =>
    have hle : (k.procs p).heapBrk ≤ brk := by omega
    obtain ⟨hlo₁, hlt₁, hmod₁⟩ := alignUp_spec (v := (k.procs p).heapBrk) (by omega)
    obtain ⟨hlo₂, hlt₂, hmod₂⟩ := alignUp_spec (v := brk) (by omega)
    have hcount := pageCount_mul hmod₁ hmod₂ (alignUp_mono hle (by omega))
    refine brkEnd_post (growHeap_spec hs hmod₁ (by omega) _ (Grew.refl hled _) (Nat.le_refl _)
      hmod₁ ?_) ?_ ?_
    · rw [hcount]
      rw [hpage] at hlt₂ ⊢
      omega
    · rw [hcount]
      rintro m' (⟨_, hg⟩ | ⟨e, hcon, _⟩)
      · exact .grew rfl hle (by omega) (by omega) hg
      · cases hcon
    · rintro e m' (⟨hcon, _⟩ | ⟨e', _, hsp⟩)
      · cases hcon
      · exact .failed rfl hsp
  next hdown =>
    split
    · exact hstop _
    split
    · exact hstop _
    next hused =>
    have huse : ((k.procs p).heapBrk + 2 ^ 64 - (k.procs p).heapStart) % 2 ^ 64 =
        (k.procs p).heapBrk - (k.procs p).heapStart := by omega
    rw [huse] at hused
    have hnew : ((k.procs p).heapBrk + 2 ^ 64 - (-increment).toNat) % 2 ^ 64 =
        (k.procs p).heapBrk - (-increment).toNat := by omega
    rw [hnew]
    obtain ⟨brk, hbrkeq⟩ : ∃ brk, brk = (k.procs p).heapBrk - (-increment).toNat := ⟨_, rfl⟩
    rw [← hbrkeq]
    have hle : brk ≤ (k.procs p).heapBrk := by omega
    obtain ⟨hlo₁, hlt₁, hmod₁⟩ := alignUp_spec (v := (k.procs p).heapBrk) (by omega)
    obtain ⟨hlo₂, hlt₂, hmod₂⟩ := alignUp_spec (v := brk) (by omega)
    have hcount := pageCount_mul hmod₂ hmod₁ (alignUp_mono hle (by omega))
    refine brkEnd_post (releasePages_spec hled hs _ hmod₂ (by omega) ?_) ?_ ?_
    · rw [hcount]
      rw [hpage] at hlt₁ ⊢
      omega
    · rw [hcount]
      rintro m' ⟨_, hsp, hnone⟩
      exact .shrank rfl (by omega) hle hsp hnone
    · rintro e m' ⟨hcon, _⟩
      cases hcon

/-- A process in use with an address space of its own and an orderly heap. -/
structure HeapInv (p : Nat) (k : Kernel) : Prop where
  owned : ∃ boot base l, Owned boot base ∅ k l
  slot : p < processMax
  inUse : (k.procs p).inUse = true
  space : (k.procs p).addrspace ≠ 0
  heap : HeapOk k.memory (k.procs p).addrspace (k.procs p).heapStart (k.procs p).heapBrk

/-- What one heap call promises. -/
structure BrkLaw (p : Nat) (k : Kernel) (r : Except Stop Nat) (k' : Kernel) : Prop where
  pages : PagesKept k.memory k'.memory (k.procs p).addrspace (k.procs p).heapStart
  value : ∀ b, r = .ok b → (k'.procs p).heapBrk = b
  failed : ∀ e, r = .error e → (k'.procs p).heapBrk = (k.procs p).heapBrk ∧
    ∀ v, UserPage v → translate k'.memory.mem (k.procs p).addrspace v =
      translate k.memory.mem (k.procs p).addrspace v

/-- The process still has its address space and the start of its heap. -/
structure SameHeap (p : Nat) (k k' : Kernel) : Prop where
  inUse : (k'.procs p).inUse = (k.procs p).inUse
  space : (k'.procs p).addrspace = (k.procs p).addrspace
  start : (k'.procs p).heapStart = (k.procs p).heapStart

theorem sameHeap_of_procs {p : Nat} {k' : Kernel}
    (h : ∃ b, k'.procs p = { k.procs p with heapBrk := b }) : SameHeap p k k' := by
  obtain ⟨b, hb⟩ := h
  exact ⟨by rw [hb], by rw [hb], by rw [hb]⟩

/-- One outcome of a heap call keeps the heap orderly and keeps its promises. -/
theorem BrkOutcome.law {p : Nat} {r : Except Stop Nat} {k' : Kernel} (ho : BrkOutcome a p k r k')
    (hled : Ledger k.memory a free) (hs : (k.procs p).addrspace ∈ a.spaces)
    (h : HeapOk k.memory (k.procs p).addrspace (k.procs p).heapStart (k.procs p).heapBrk) :
    SameHeap p k k' ∧
      HeapOk k'.memory (k.procs p).addrspace (k.procs p).heapStart (k'.procs p).heapBrk ∧
      BrkLaw p k r k' := by
  obtain ⟨_, hbrk, _, hlast⟩ := h.bounds
  have hstart : (k.procs p).heapStart ≤ alignUp (k.procs p).heapBrk pageSize :=
    Nat.le_trans h.start_le (alignUp_spec (by omega)).1
  cases ho with
  | stayed hr =>
      refine ⟨⟨rfl, rfl, rfl⟩, h, ?_, hr, fun e _ => ⟨rfl, fun _ _ => rfl⟩⟩
      exact (Spared.refl hled (fun _ => False)).pagesKept hled hs
        (fun _ _ hcon => hcon.elim) (fun _ _ hcon => hcon.elim)
  | failed hprocs hsp =>
      have hbrk' : (k'.procs p).heapBrk = (k.procs p).heapBrk := by rw [hprocs]
      rw [hbrk']
      refine ⟨sameHeap_of_procs ⟨_, by rw [hprocs]⟩, h.spared ⟨free, hled⟩ hs hsp, ?_, ?_, ?_⟩
      · exact hsp.pagesKept hled hs (fun _ _ hcon => hcon.elim) (fun _ _ hcon => hcon.elim)
      · intro b hb
        cases hb
      · intro e _
        refine ⟨hbrk', fun v hv => ?_⟩
        rw [translate_leafAt hsp.ledger hs hv, translate_leafAt ⟨free, hled⟩ hs hv,
          hsp.leaves v hv id]
  | @grew brk _ hprocs hle hhi hguard hg =>
      have hself : k'.procs p = { k.procs p with heapBrk := brk } := by
        rw [hprocs, Function.update_self]
      have hguard' : userStackGuard = 0x00007FF7FFFEF000 := rfl
      have hok := h.grow ⟨free, hled⟩ hs hle hhi (by omega) hg
      rw [show (k'.procs p).heapBrk = brk by rw [hself]]
      refine ⟨sameHeap_of_procs ⟨brk, hself⟩, hok, ?_, ?_, ?_⟩
      · refine hg.spared.pagesKept hled hs ?_ ?_
        · intro v _ hin
          exact ⟨Nat.le_trans hstart hin.1, Nat.lt_of_lt_of_le hin.2 hok.bounds.2.2.2⟩
        · intro v hv hin
          refine Or.inr ⟨hg.unbound v hv hin, fun e he => ?_⟩
          obtain ⟨f, hf, hleaf, hzero⟩ := hg.fresh v hv hin
          rw [he] at hleaf
          cases hleaf
          rw [tableOf_leafEntry hf]
          exact hzero
      · intro b hb
        cases hb
        rw [hself]
      · intro e he
        cases he
  | @shrank brk _ hprocs hlo hle hsp hnone =>
      have hself : k'.procs p = { k.procs p with heapBrk := brk } := by
        rw [hprocs, Function.update_self]
      have hok := h.shrink ⟨free, hled⟩ hs hlo hle hsp hnone
      have hfirst : (k.procs p).heapStart ≤ alignUp brk pageSize :=
        Nat.le_trans hlo (alignUp_spec (by omega)).1
      rw [show (k'.procs p).heapBrk = brk by rw [hself]]
      refine ⟨sameHeap_of_procs ⟨brk, hself⟩, hok, ?_, ?_, ?_⟩
      · refine hsp.pagesKept hled hs ?_ (fun v hv hin => Or.inl (hnone v hv hin))
        intro v _ hin
        exact ⟨Nat.le_trans hfirst hin.1, Nat.lt_of_lt_of_le hin.2 hlast⟩
      · intro b hb
        cases hb
        rw [hself]
      · intro e he
        cases he

/-- A heap call keeps the heap orderly and keeps its promises, whatever the increment
and however many frames are free. -/
theorem umemBrk_spec {p : Nat} (h : HeapInv p k) (increment : Int) :
    Eff.Post (umemBrk p increment) k (fun r k' =>
      HeapInv p k' ∧ SameHeap p k k' ∧ BrkLaw p k r k') := by
  obtain ⟨boot, base, l, howned⟩ := h.owned
  have hp : p ∈ l := (howned.members p).mpr ⟨h.slot, h.inUse⟩
  obtain ⟨free, hled⟩ := howned.ledger
  have hs : (k.procs p).addrspace ∈ (accountOf boot base ∅ k l).spaces :=
    Finset.mem_union_left _ (mem_slotSpaces.mpr ⟨h.space, p, hp, rfl⟩)
  refine Eff.post_mono (Eff.post_and (umemBrk_owned howned hp increment)
    (umemBrk_outcome hled hs h.heap increment)) ?_
  rintro r k' ⟨⟨⟨l', howned'⟩, _⟩, ho⟩
  obtain ⟨hsame, hheap, hlaw⟩ := ho.law hled hs h.heap
  refine ⟨⟨⟨boot, base, l', howned'⟩, h.slot, hsame.inUse.trans h.inUse, ?_, ?_⟩, hsame, hlaw⟩
  · rw [hsame.space]
    exact h.space
  · rw [hsame.space, hsame.start]
    exact hheap

/-! ## Spawning -/

/-- A call of the kernel that frees the frames of other address spaces leaves the
entries of one that is under construction alone. -/
theorem Owned.reap_entryAt {k' : Kernel} (h : Owned boot base {s} k l)
    (hreap : processReap k = (.ok (), k')) {p : List Nat} (hp : UserPos p) :
    entryAt k'.memory.mem s p = entryAt k.memory.mem s p := by
  obtain ⟨free, hled⟩ := h.ledger
  have hs : s ∈ (accountOf boot base {s} k l).spaces :=
    Finset.mem_union_right _ (Finset.mem_singleton_self s)
  have hframes : ∀ f, f ∈ (spaceFrames k.memory.mem s).toFinset ↔
      ∃ p, UserPos p ∧ tableAt k.memory.mem s p = some f := by
    intro f
    rw [List.mem_toFinset]
    exact hled.mem_spaceFrames hs f
  -- without the address space the kernel owns fewer frames, and reaping stays among them
  have hless : Owned (boot \ (spaceFrames k.memory.mem s).toFinset) k.memory.mem ∅ k l := by
    refine ⟨h.chain, h.members, h.idle, h.inj, by simp, free, ?_⟩
    have hled' := hled.withdraw hs hframes
    rw [accountOf, h.spaces_erase]
    exact hled'
  have hpost := hless.processReap_post
  unfold Eff.Post at hpost
  rw [hreap] at hpost
  obtain ⟨_, _, l', howned'⟩ := hpost
  obtain ⟨free', hled'⟩ := howned'.ledger
  refine entryAt_of_frames (fun q f hq ht => ?_) hp
  refine hled'.outside f (fun hcon => ?_)
  exact (Finset.mem_sdiff.mp hcon).2 ((hframes f).mpr ⟨q, hq, ht⟩)

/-- A memory call leaves the process table alone. -/
theorem onMemory_post {α : Type} {c : MemM α} {Q : Except Nstatus α → Memory → Prop}
    (hc : Eff.Post c k.memory Q) :
    Eff.Post (onMemory c) k (fun r k' => k'.procs = k.procs ∧
      ∀ x, r = .ok x → Q (.ok x) k'.memory) := by
  unfold Eff.Post at hc ⊢
  unfold onMemory
  cases hrun : c k.memory with
  | mk r m' =>
      rw [hrun] at hc
      cases r with
      | error e => exact ⟨rfl, fun x hx => by cases hx⟩
      | ok y =>
          refine ⟨rfl, fun x hx => ?_⟩
          cases hx
          exact hc

/-- The image that {lit}`process_create_user` puts into a slot. -/
def userImage (pml4 entry stackTop heapStart : Nat) : Proc :=
  { Proc.zero with
    addrspace := pml4, userEntry := entry, userStackTop := stackTop,
    heapStart := heapStart, heapBrk := heapStart }

/-- Registering a process with an address space gives it an empty heap and leaves the
pages of the address space alone. -/
theorem Owned.createUser_heap (h : Owned boot base {s} k l) (entry stackTop heapStart : Nat) :
    Eff.Post (processCreateUser s entry stackTop heapStart) k (fun r k' => ∀ pid, r = .ok pid →
      ∃ p l', Owned boot base ∅ k' l' ∧ p ∈ l' ∧ (k'.procs p).pid = pid ∧
        (k'.procs p).addrspace = s ∧ (k'.procs p).heapStart = heapStart ∧
        (k'.procs p).heapBrk = heapStart ∧
        ∀ q, UserPos q → entryAt k'.memory.mem s q = entryAt k.memory.mem s q) := by
  unfold processCreateUser
  split
  · exact Eff.post_of_eq rfl (fun pid hpid => by cases hpid)
  have hpost := h.processReap_post
  unfold Eff.Post at hpost
  cases hreap : processReap k with
  | mk r k₁ =>
      rw [hreap] at hpost
      obtain ⟨rfl, -, l₁, h₁⟩ := hpost
      rcases h₁.chained.createProc_run h.idle.1 hreap
          (userImage s entry stackTop heapStart) with
        ⟨-, hrun⟩ | ⟨l₂, q, slot, rfl, hslot, hzero, hfree, hrun⟩
      · exact Eff.post_of_eq hrun (fun pid hpid => by cases hpid)
      · refine Eff.post_of_eq hrun (fun pid hpid => ?_)
        cases hpid
        have hqs : q ≠ slot := by
          rintro rfl
          have hq := (h₁.members q).mp (by simp)
          rw [hfree] at hq
          cases hq.2
        obtain ⟨img, himg⟩ : ∃ img,
            img = startImage (userImage s entry stackTop heapStart) k₁.nextPid := ⟨_, rfl⟩
        have hspace : img.addrspace = s := by rw [himg]; rfl
        have howned : Owned boot base (({s} : Finset Nat).erase img.addrspace)
            (appended k₁ q slot img) (l₂ ++ [q, slot]) :=
          h₁.append hslot hzero hfree (by rw [himg]; rfl) (by rw [himg]; rfl)
            (Or.inr (by rw [hspace]; exact Finset.mem_singleton_self s))
        rw [hspace, Finset.erase_singleton, himg] at howned
        refine ⟨slot, _, howned, by simp, ?_, ?_, ?_, ?_, fun p hp => h.reap_entryAt hreap hp⟩
        all_goals
          rw [appended_self hqs]
          rfl

/-- The slot of a process that a spawn has just made: its address space is none of
those before. -/
structure Spawned (k k' : Kernel) (pid p : Nat) : Prop where
  slot : p < processMax
  inUse : (k'.procs p).inUse = true
  pid_eq : (k'.procs p).pid = pid
  space : (k'.procs p).addrspace ≠ 0
  new : (k'.procs p).addrspace ∉ liveSpaces k

/-- An address space without pages between an address and the guard page has an
empty heap there. -/
theorem heapOk_empty (hled : ∃ free, Ledger m a free) (hs : s ∈ a.spaces)
    (halign : start % pageSize = 0) (hlo : userElfMinVaddr ≤ start)
    (hhi : start ≤ userElfMaxVaddr)
    (hnone : ∀ v, UserPage v → Within start userStackGuard v → leafAt m s v = none) :
    HeapOk m s start start := by
  have hmax : userElfMaxVaddr = 0x0000700000000000 := rfl
  have hself : alignUp start pageSize = start := alignUp_of_aligned (by omega) halign
  refine ⟨halign, hlo, hhi, Nat.le_refl _, Nat.le_add_right _ _, ?_, ?_⟩
  · intro v hv hin
    rw [translate_leafAt hled hs hv, hnone v hv hin, hself]
    have := hin.1
    simp only [Option.map_none, Option.isSome_none, Bool.false_eq_true, false_iff]
    omega
  · intro v hv hin f flags hf
    rw [translate_leafAt hled hs hv, hnone v hv hin] at hf
    cases hf

/-- A spawned process has an empty heap behind its image. -/
theorem processSpawn_heap (h : Owned boot base ∅ k l) (file : Except Nstatus FileView) :
    Eff.Post (processSpawn file) k (fun r k' => ∀ pid, r = .ok pid →
      ∃ p, Spawned k k' pid p ∧ HeapInv p k') := by
  have hdead : ∀ {k' : Kernel} {s : Nat} (e : Nstatus),
      Eff.Post (do onMemory (pagingAddrspaceDestroy s); failWith e : KernelM Nat) k'
        (fun r k' => ∀ pid, r = .ok pid → ∃ p, Spawned k k' pid p ∧ HeapInv p k') := by
    intro k' s e
    refine Eff.post_bind (Q := fun r k' => ∀ pid, r = .ok pid → ∃ p, Spawned k k' pid p ∧
      HeapInv p k') (R := fun _ _ => True) trivial ?_ ?_
    · intro e' k'' _ pid hpid
      cases hpid
    · intro _ k'' _
      exact Eff.post_of_eq rfl (fun pid hpid => by cases hpid)
  unfold processSpawn
  cases file with
  | error e => exact Eff.post_of_eq rfl (fun pid hpid => by cases hpid)
  | ok view =>
      obtain ⟨free, hled⟩ := h.ledger
      refine Eff.post_bind (Eff.post_and h.create_post
        (onMemory_post hled.pagingAddrspaceCreate_post)) ?_ ?_
      · intro e k' _ pid hpid
        cases hpid
      rintro s k₁ ⟨⟨_, ⟨⟩, h₁⟩ | ⟨_, hcon, _⟩, hprocs₁, hnew⟩
      swap
      · cases hcon
      obtain ⟨_, _, ⟨⟩, _, hfresh, _, hempty, _⟩ | ⟨_, hcon, _⟩ := hnew s rfl
      swap
      · cases hcon
      have hs : ∀ {k' : Kernel}, s ∈ (accountOf boot base {s} k' l).spaces :=
        Finset.mem_union_right _ (Finset.mem_singleton_self s)
      have hlive : s ∉ liveSpaces k := fun hcon => hfresh (h.mem_spaces.mpr hcon)
      obtain ⟨free₁, hled₁⟩ := h₁.ledger
      refine post_attemptStatus_bind (Eff.post_and (h₁.memory_post (tidy_elfLoad hs view))
        (onMemory_post (elfLoad_spec hled₁ hs view))) ?_ ?_ ?_ ?_
      · rintro ⟨entry, imageEnd⟩ k₂ ⟨⟨h₂, _⟩, _, hload⟩
        obtain ⟨halign, hlo, hhi, hleaves₂⟩ := hload _ rfl entry imageEnd rfl
        obtain ⟨free₂, hled₂⟩ := h₂.ledger
        refine post_attemptStatus_bind (Eff.post_and (h₂.memory_post (tidy_mapUserStack hs))
          (onMemory_post (confined_mapUserStack hs k₂.memory free₂ hled₂))) ?_ ?_ ?_ ?_
        · rintro _ k₃ ⟨⟨h₃, _⟩, _, hstack⟩
          obtain ⟨_, hleaves₃⟩ := hstack () rfl
          refine post_attemptStatus_bind (h₃.createUser_heap entry _ imageEnd) ?_ ?_ ?_ ?_
          · intro pid k₄ hcreate
            refine Eff.post_of_eq rfl (fun pid' hpid => ?_)
            cases hpid
            obtain ⟨p, l₄, h₄, hp, hpid, hspace, hstart, hbrk, hsame⟩ := hcreate pid rfl
            obtain ⟨hslot, huse⟩ := (h₄.members p).mp hp
            obtain ⟨free₃, hled₃⟩ := h₃.ledger
            have hs0 : s ≠ 0 := (hled₃.frame s (hled₃.space_owned hs).1).ne_zero
            have hs₄ : s ∈ (accountOf boot base ∅ k₄ l₄).spaces :=
              Finset.mem_union_left _ (mem_slotSpaces.mpr ⟨hs0, p, hp, hspace⟩)
            refine ⟨p, ⟨hslot, huse, hpid, hspace ▸ hs0, hspace ▸ hlive⟩,
              ⟨boot, base, l₄, h₄⟩, hslot, huse, hspace ▸ hs0, ?_⟩
            rw [hspace, hstart, hbrk]
            refine heapOk_empty h₄.ledger hs₄ halign hlo hhi (fun v hv hin => ?_)
            have hbelow : ¬ userStackBase ≤ v := by
              have := hin.2
              have hguard : userStackGuard = 0x00007FF7FFFEF000 := rfl
              have hbase : userStackBase = 0x00007FF7FFFF0000 := rfl
              omega
            have hpos := userPos_leafPos hv.1
            calc leafAt k₄.memory s v = leafAt k₃.memory s v := hsame _ hpos
              _ = leafAt k₂.memory s v := hleaves₃ v hv hbelow
              _ = leafAt k₁.memory s v := hleaves₂ v hv hin.1
              _ = none := hempty _ hpos
          · intro e k₄ _
            exact hdead e
          · intro k₄ _ pid hpid
            cases hpid
          · intro k₄ _ pid hpid
            cases hpid
        · intro e k₃ _
          exact hdead e
        · intro k₃ _ pid hpid
          cases hpid
        · intro k₃ _ pid hpid
          cases hpid
      · intro e k₂ _
        exact hdead e
      · intro k₂ _ pid hpid
        cases hpid
      · intro k₂ _ pid hpid
        cases hpid

/-! ## Runs -/

/-- What may happen between two heap calls of a process: the program writes to its
pages, and the rest of the kernel takes and gives back frames, but the process keeps
its address space and its pages. -/
structure Elsewhere (p : Nat) (k k' : Kernel) : Prop where
  owned : ∃ boot base l, Owned boot base ∅ k' l
  same : SameHeap p k k'
  brk : (k'.procs p).heapBrk = (k.procs p).heapBrk
  nx : k'.memory.nxSupported = k.memory.nxSupported
  pages : ∀ v, UserPage v → translate k'.memory.mem (k.procs p).addrspace v =
    translate k.memory.mem (k.procs p).addrspace v

/-- One step in the life of a heap. -/
inductive HeapStep (p : Nat) : Kernel → Kernel → Prop
  | brk (k : Kernel) (increment : Int) : HeapStep p k (umemBrk p increment k).2
  | elsewhere {k k' : Kernel} (h : Elsewhere p k k') : HeapStep p k k'

/-- The states the heap of a process passes through. -/
def HeapRun (p : Nat) : Kernel → Kernel → Prop :=
  Relation.ReflTransGen (HeapStep p)

theorem HeapInv.elsewhere {p : Nat} {k' : Kernel} (h : HeapInv p k) (he : Elsewhere p k k') :
    HeapInv p k' where
  owned := he.owned
  slot := h.slot
  inUse := he.same.inUse.trans h.inUse
  space := by
    rw [he.same.space]
    exact h.space
  heap := by
    rw [he.same.space, he.same.start, he.brk]
    exact {
      aligned := h.heap.aligned
      lower := h.heap.lower
      upper := h.heap.upper
      start_le := h.heap.start_le
      brk_le := h.heap.brk_le
      mapped := by
        intro v hv hin
        rw [he.pages v hv]
        exact h.heap.mapped v hv hin
      flags := by
        intro v hv hin f flags hf
        rw [he.pages v hv] at hf
        rw [he.nx]
        exact h.heap.flags v hv hin f flags hf }

theorem HeapInv.step {p : Nat} {k' : Kernel} (h : HeapInv p k) (hstep : HeapStep p k k') :
    HeapInv p k' ∧ SameHeap p k k' := by
  cases hstep with
  | brk increment =>
      obtain ⟨hinv, hsame, _⟩ := umemBrk_spec h increment
      exact ⟨hinv, hsame⟩
  | elsewhere he => exact ⟨h.elsewhere he, he.same⟩

theorem HeapInv.run {p : Nat} {k' : Kernel} (h : HeapInv p k) (hr : HeapRun p k k') :
    HeapInv p k' ∧ SameHeap p k k' := by
  induction hr with
  | refl => exact ⟨h, rfl, rfl, rfl⟩
  | tail _ hstep ih =>
      obtain ⟨hinv, hsame⟩ := ih
      obtain ⟨hinv', hsame'⟩ := hinv.step hstep
      exact ⟨hinv', hsame'.inUse.trans hsame.inUse, hsame'.space.trans hsame.space,
        hsame'.start.trans hsame.start⟩

/-- The heap of a spawned process, in every state after every run of heap calls: it
stays within its bounds, the pages between its start and the guard page that are mapped
are those up to its end, and the next call, whatever its increment and wherever the
frames run out, keeps the pages outside and the data of the pages that stay, maps only
cleared pages, and changes nothing if it fails. -/
theorem heap_invariant {k₀ k₁ : Kernel} (h : Started boot k₀) (hr : Run k₀ k)
    {file : Except Nstatus FileView} {pid : Nat} (hspawn : processSpawn file k = (.ok pid, k₁)) :
    ∃ p, Spawned k k₁ pid p ∧ ∀ k₂, HeapRun p k₁ k₂ → SameHeap p k₁ k₂ ∧
      HeapOk k₂.memory (k₂.procs p).addrspace (k₂.procs p).heapStart (k₂.procs p).heapBrk ∧
      ∀ increment, BrkLaw p k₂ (umemBrk p increment k₂).1 (umemBrk p increment k₂).2 := by
  obtain ⟨l, howned⟩ := h.owned.run hr
  have hpost := processSpawn_heap howned file
  unfold Eff.Post at hpost
  rw [hspawn] at hpost
  obtain ⟨p, hnew, hinv⟩ := hpost pid rfl
  refine ⟨p, hnew, fun k₂ hrun => ?_⟩
  obtain ⟨hinv₂, hsame⟩ := hinv.run hrun
  refine ⟨hsame, hinv₂.heap, fun increment => ?_⟩
  exact (umemBrk_spec hinv₂ increment).2.2

/-- The heap of the small program on the small machine. -/
theorem heap_invariant_small :
    Started smallBoot.toFinset smallKernel ∧
      ∃ p, Spawned smallKernel (processSpawn (.ok smallFile) smallKernel).2 1 p ∧
        ∀ k₂, HeapRun p (processSpawn (.ok smallFile) smallKernel).2 k₂ →
          HeapOk k₂.memory (k₂.procs p).addrspace (k₂.procs p).heapStart (k₂.procs p).heapBrk := by
  have hresult : (processSpawn (.ok smallFile) smallKernel).1.toOption = some 1 := by
    decide +kernel
  have hspawn : processSpawn (.ok smallFile) smallKernel =
      (.ok 1, (processSpawn (.ok smallFile) smallKernel).2) := by
    cases hrun : processSpawn (.ok smallFile) smallKernel with
    | mk r k₁ =>
        rw [hrun] at hresult
        cases r with
        | error e => cases hresult
        | ok pid =>
            cases hresult
            rfl
  obtain ⟨p, hnew, hheap⟩ :=
    heap_invariant started_smallKernel Relation.ReflTransGen.refl hspawn
  exact ⟨started_smallKernel, p, hnew, fun k₂ hrun => (hheap k₂ hrun).2.1⟩

/-- The small machine with a processor that cannot mark pages as not executable. -/
def plainKernel : Kernel :=
  { smallKernel with memory := { smallKernel.memory with nxSupported := false } }

theorem started_plainKernel : Started smallBoot.toFinset plainKernel where
  allocator := ⟨smallBoot, ⟨by decide +kernel, by decide +kernel⟩, rfl⟩
  frame := started_smallKernel.frame
  kernel := started_smallKernel.kernel
  table := ⟨{
    memory := plainKernel.memory
    procs := fun _ => Proc.zero
    processList := none
    current := none
    nextPid := 1
    tick := 0
    lastExitCode := 0 }, rfl, rfl⟩

/-- The small program on that machine after it has asked for one byte of heap. -/
def plainGrown : Kernel :=
  (umemBrk 1 1 (processSpawn (.ok smallFile) plainKernel).2).2

/-- Without support of the processor the page of the heap is mapped executable. -/
theorem heapPage_executable :
    Started smallBoot.toFinset plainKernel ∧
      (processSpawn (.ok smallFile) plainKernel).1.toOption = some 1 ∧
      HeapRun 1 (processSpawn (.ok smallFile) plainKernel).2 plainGrown ∧
      (plainGrown.procs 1).heapStart < (plainGrown.procs 1).heapBrk ∧
      (translate plainGrown.memory.mem (plainGrown.procs 1).addrspace
        (plainGrown.procs 1).heapStart).map (fun x => hasFlag x.2 pageNx) = some false := by
  refine ⟨started_plainKernel, by decide +kernel, ?_, by decide +kernel, by decide +kernel⟩
  exact Relation.ReflTransGen.single (.brk _ 1)

end Process
end Nyxis
