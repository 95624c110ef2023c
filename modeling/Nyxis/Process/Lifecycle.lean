import Nyxis.Process.Ownership
import Nyxis.Mm.Translation

/-!
# Frames over the life of processes

Processes are spawned, grow and shrink their heaps, exit and are reaped in any
order, and each of these calls may fail at any of its steps.  In every state so
reached the frames handed out at boot are divided, without overlap, among the
free list and the address spaces of the processes in use.

Main results:

- Theorem {lit}`processSpawn_owned`: a spawn keeps the ownership invariant,
  wherever it stops.
- Theorem {lit}`frames_conserved`: the division of the frames in every reachable
  state, and what a finished process has given back.
-/

namespace Nyxis
namespace Process

open Mm

variable {boot : Finset Nat} {base : Nat → Nat → Nat} {extra : Finset Nat}
  {k : Kernel} {l : List Nat}

/-! ## Address spaces under construction -/

/-- A new address space is under construction until it is put into the table. -/
theorem Owned.create_post (h : Owned boot base ∅ k l) :
    Eff.Post (onMemory pagingAddrspaceCreate) k (fun r k' =>
      (∃ s, r = .ok s ∧ Owned boot base {s} k' l) ∨
      (∃ e, r = .error (.status e) ∧ Owned boot base ∅ k' l)) := by
  obtain ⟨free, hled⟩ := h.ledger
  have hpost := hled.pagingAddrspaceCreate_post
  unfold Eff.Post at hpost ⊢
  unfold onMemory
  cases hrun : pagingAddrspaceCreate k.memory with
  | mk r m =>
      rw [hrun] at hpost
      rcases hpost with ⟨s, free', rfl, _, hnew, hled', _⟩ | ⟨e, rfl, rfl⟩
      · refine Or.inl ⟨s, rfl, h.chain, h.members, h.idle, h.inj, ?_, free', ?_⟩
        · intro i hi hcon
          rw [Finset.mem_singleton] at hcon
          have hs0 : s ≠ 0 := by
            have hsp : s ∈ insert s (accountOf boot base ∅ k l).spaces :=
              Finset.mem_insert_self s _
            exact (hled'.frame s (hled'.space_owned hsp).1).ne_zero
          exact hnew (Finset.mem_union_left _ (mem_slotSpaces.mpr ⟨hs0, i, hi, hcon⟩))
        · have hspaces : slotSpaces k.procs l ∪ {s} =
              insert s (accountOf boot base ∅ k l).spaces := by
            ext t
            simp only [accountOf, Finset.mem_union, Finset.mem_singleton, Finset.mem_insert,
              Finset.notMem_empty, or_false]
            tauto
          rw [accountOf, hspaces]
          exact hled'
      · exact Or.inr ⟨e, rfl, h⟩

/-- The address spaces of the table are those that are not under construction. -/
theorem Owned.spaces_erase {s : Nat} (h : Owned boot base {s} k l) :
    slotSpaces k.procs l ∪ ∅ = (slotSpaces k.procs l ∪ {s}).erase s := by
  ext t
  simp only [Finset.mem_union, Finset.mem_singleton, Finset.mem_erase, Finset.notMem_empty,
    or_false, mem_slotSpaces]
  constructor
  · rintro ⟨ht, i, hi, his⟩
    refine ⟨?_, Or.inl ⟨ht, i, hi, his⟩⟩
    rintro rfl
    exact h.apart i hi (by rw [his]; exact Finset.mem_singleton_self t)
  · rintro ⟨hne, hmem | heq⟩
    · exact hmem
    · exact absurd heq hne

/-- Giving back an address space that never got into the table. -/
theorem Owned.destroy_post {s : Nat} (h : Owned boot base {s} k l) :
    Eff.Post (onMemory (pagingAddrspaceDestroy s)) k (fun r k' =>
      r = .ok () ∧ Owned boot base ∅ k' l) := by
  obtain ⟨free, hled⟩ := h.ledger
  have hs : s ∈ (accountOf boot base {s} k l).spaces :=
    Finset.mem_union_right _ (Finset.mem_singleton_self s)
  obtain ⟨hrun, hled', _, _⟩ := hled.pagingAddrspaceDestroy_run hs
  refine Eff.post_of_eq (onMemory_ok hrun) ⟨rfl, h.chain, h.members, h.idle, h.inj, ?_,
    (spaceFrames k.memory.mem s).reverse ++ free, ?_⟩
  · simp
  · rw [accountOf, h.spaces_erase]
    exact hled'

/-- Registering a process puts its address space into the table, or leaves it to
the caller. -/
theorem Owned.createUser_post {s : Nat} (h : Owned boot base {s} k l)
    (entry stackTop heapStart : Nat) :
    Eff.Post (processCreateUser s entry stackTop heapStart) k (fun r k' =>
      (∃ pid l', r = .ok pid ∧ Owned boot base ∅ k' l') ∨
      (∃ e l', r = .error (.status e) ∧ Owned boot base {s} k' l')) := by
  have hs0 : s ≠ 0 := by
    obtain ⟨free, hled⟩ := h.ledger
    have hs : s ∈ (accountOf boot base {s} k l).spaces :=
      Finset.mem_union_right _ (Finset.mem_singleton_self s)
    exact (hled.frame s (hled.space_owned hs).1).ne_zero
  rw [processCreateUser, if_neg hs0]
  refine Eff.post_mono (h.createProc_post (Or.inr (Finset.mem_singleton_self s))) ?_
  rintro r k' (⟨pid, l', rfl, h'⟩ | ⟨e, l', rfl, h'⟩)
  · have hempty : ({s} : Finset Nat).erase s = ∅ := by simp
    simp only [hempty] at h'
    exact Or.inl ⟨pid, l', rfl, h'⟩
  · exact Or.inr ⟨e, l', rfl, h'⟩

/-- The outcomes of a spawn: the invariant holds again, and the call has returned. -/
def Returned {α : Type} (boot : Finset Nat) (base : Nat → Nat → Nat) (r : Except Stop α)
    (k' : Kernel) : Prop :=
  (∃ l', Owned boot base ∅ k' l') ∧ r ≠ .error .panic ∧ r ≠ .error .hang

/-- Failing after the address space under construction has been given back. -/
theorem Owned.abandon_post {s : Nat} (h : Owned boot base {s} k l) (e : Nstatus) :
    Eff.Post (do onMemory (pagingAddrspaceDestroy s); failWith e : KernelM Nat) k
      (Returned boot base) := by
  refine Eff.post_bind h.destroy_post ?_ ?_
  · rintro e' k' ⟨hcon, _⟩
    cases hcon
  · rintro _ k' ⟨_, howned⟩
    exact Eff.post_of_eq rfl ⟨⟨l, howned⟩, by simp, by simp⟩

/-- A spawn keeps the invariant, wherever it stops. -/
theorem processSpawn_owned (h : Owned boot base ∅ k l) (file : Except Nstatus FileView) :
    Eff.Post (processSpawn file) k (Returned boot base) := by
  unfold processSpawn
  cases file with
  | error e => exact Eff.post_of_eq rfl ⟨⟨l, h⟩, by simp, by simp⟩
  | ok view =>
      refine Eff.post_bind h.create_post ?_ ?_
      · rintro e k' (⟨_, hcon, _⟩ | ⟨e', he, howned⟩)
        · cases hcon
        · rw [he]
          exact ⟨⟨l, howned⟩, by simp, by simp⟩
      rintro s k₁ (⟨_, ⟨⟩, h₁⟩ | ⟨_, hcon, _⟩)
      swap
      · cases hcon
      have hs : ∀ {k' : Kernel}, s ∈ (accountOf boot base {s} k' l).spaces :=
        Finset.mem_union_right _ (Finset.mem_singleton_self s)
      refine post_attemptStatus_bind (h₁.memory_post (tidy_elfLoad hs view)) ?_ ?_ ?_ ?_
      · rintro ⟨entry, imageEnd⟩ k₂ ⟨h₂, _⟩
        refine post_attemptStatus_bind (h₂.memory_post (tidy_mapUserStack hs)) ?_ ?_ ?_ ?_
        · rintro _ k₃ ⟨h₃, _⟩
          refine post_attemptStatus_bind (h₃.createUser_post entry _ imageEnd) ?_ ?_ ?_ ?_
          · rintro pid k₄ (⟨_, l', _, h₄⟩ | ⟨_, _, hcon, _⟩)
            · exact Eff.post_of_eq rfl ⟨⟨l', h₄⟩, by simp, by simp⟩
            · cases hcon
          · rintro e k₄ (⟨_, _, hcon, _⟩ | ⟨_, l', _, h₄⟩)
            · cases hcon
            · exact h₄.abandon_post e
          · rintro k₄ (⟨_, _, hcon, _⟩ | ⟨_, _, hcon, _⟩) <;> cases hcon
          · rintro k₄ (⟨_, _, hcon, _⟩ | ⟨_, _, hcon, _⟩) <;> cases hcon
        · rintro e k₃ ⟨h₃, _⟩
          exact h₃.abandon_post e
        · rintro k₃ ⟨_, _, hcon, _⟩
          exact absurd rfl hcon
        · rintro k₃ ⟨_, _, _, hcon⟩
          exact absurd rfl hcon
      · rintro e k₂ ⟨h₂, _⟩
        exact h₂.abandon_post e
      · rintro k₂ ⟨_, _, hcon, _⟩
        exact absurd rfl hcon
      · rintro k₂ ⟨_, _, _, hcon⟩
        exact absurd rfl hcon

/-! ## The other calls -/

/-- The heap call keeps the invariant. -/
theorem umemBrk_owned (h : Owned boot base ∅ k l) {p : Nat} (hp : p ∈ l) (increment : Int) :
    Eff.Post (umemBrk p increment) k (Returned boot base) := by
  have hstop : ∀ e, Eff.Post (failWith e : KernelM Nat) k (Returned boot base) :=
    fun e => Eff.post_of_eq rfl ⟨⟨l, h⟩, by simp, by simp⟩
  have hend : ∀ {c : MemM Unit} (brk : Nat),
      Tidy (accountOf boot base ∅ k l) (k.procs p).addrspace c →
      Eff.Post (do
        onMemory c
        setProc p (fun r => { r with heapBrk := brk })
        pure brk : KernelM Nat) k (Returned boot base) := by
    intro c brk hc
    refine Eff.post_bind (h.memory_post hc) ?_ ?_
    · rintro e k' ⟨h', _, hpanic, hhang⟩
      exact ⟨⟨l, h'⟩, by simpa using hpanic, by simpa using hhang⟩
    · rintro _ k' ⟨h', _⟩
      have hshape : Shaped (setProc p (fun r => { r with heapBrk := brk })) :=
        shaped_setProc p (fun _ => ⟨rfl, rfl, rfl, rfl⟩)
      refine Eff.post_bind_ok rfl (Eff.post_of_eq rfl ⟨⟨l, ?_⟩, by simp, by simp⟩)
      exact (hshape k').owned h'
  unfold umemBrk
  refine Eff.post_gets_bind ?_
  dsimp only
  split
  · exact hstop _
  next hspace =>
  have hs : (k.procs p).addrspace ∈ (accountOf boot base ∅ k l).spaces :=
    Finset.mem_union_left _ (mem_slotSpaces.mpr ⟨hspace, p, hp, rfl⟩)
  split
  · exact Eff.post_of_eq rfl ⟨⟨l, h⟩, by simp, by simp⟩
  split
  · split
    · exact hstop _
    split
    · exact hstop _
    split
    · exact hstop _
    · exact hend _ (tidy_growHeap hs _ _ _)
  split
  · exact hstop _
  split
  · exact hstop _
  · exact hend _ (tidy_releasePages hs _ _)

/-- A computation that keeps the invariant. -/
def Keeps {α : Type} (boot : Finset Nat) (base : Nat → Nat → Nat) (c : KernelM α) : Prop :=
  ∀ k l, Owned boot base ∅ k l → Eff.Post c k (fun _ k' => ∃ l', Owned boot base ∅ k' l')

theorem Shaped.keeps {α : Type} {c : KernelM α} (hc : Shaped c) : Keeps boot base c :=
  fun k l h => Eff.post_mono (hc k) (fun _ _ hshape => ⟨l, hshape.owned h⟩)

theorem Keeps.bind {α β : Type} {c : KernelM α} {f : α → KernelM β}
    (hc : Keeps boot base c) (hf : ∀ x, Keeps boot base (f x)) :
    Keeps boot base (c >>= f) := by
  intro k l h
  refine Eff.post_bind (hc k l h) (fun _ _ h' => h') ?_
  rintro x k' ⟨l', h'⟩
  exact hf x k' l' h'

theorem keeps_processReap : Keeps boot base processReap :=
  fun _ _ h => Eff.post_mono h.processReap_post (fun _ _ h' => h'.2.2)

theorem keeps_processCreate (entryPoint : Nat) :
    Keeps boot base (processCreate entryPoint) := by
  intro k l h
  unfold processCreate
  split
  · exact Eff.post_of_eq rfl ⟨l, h⟩
  · refine Eff.post_bind (h.createProc_post (Or.inl rfl)) ?_ ?_
    · rintro e k' (⟨_, _, hcon, _⟩ | ⟨_, l', _, h'⟩)
      · cases hcon
      · exact ⟨l', h'⟩
    · rintro pid k' (⟨_, l', _, h'⟩ | ⟨_, _, hcon, _⟩)
      · have hempty : (∅ : Finset Nat).erase Proc.zero.addrspace = ∅ := by simp
        rw [hempty] at h'
        exact Eff.post_of_eq rfl ⟨l', h'⟩
      · cases hcon

theorem keeps_processTerminate (pid : Nat) : Keeps boot base (processTerminate pid) := by
  unfold processTerminate
  split
  · exact (Shaped.fail _).keeps
  refine Keeps.bind (shaped_gets _).keeps (fun head => ?_)
  refine Keeps.bind (shaped_findPid pid processMax head).keeps (fun found => ?_)
  cases found with
  | none => exact (Shaped.fail _).keeps
  | some p =>
      refine Keeps.bind (shaped_gets _).keeps (fun proc => ?_)
      split
      · exact (Shaped.fail _).keeps
      refine Keeps.bind (Shaped.keeps ?_) (fun _ => ?_)
      · exact shaped_setProc p (fun _ => ⟨rfl, rfl, rfl, rfl⟩)
      refine Keeps.bind (shaped_gets _).keeps (fun cur => ?_)
      split
      · refine Keeps.bind shaped_schedule.keeps (fun _ => ?_)
        refine Keeps.bind (shaped_gets _).keeps (fun cur' => ?_)
        split
        · exact (Shaped.fail _).keeps
        · exact (Shaped.pure _).keeps
      · exact keeps_processReap

theorem keeps_processExitWithCode (code : Int) :
    Keeps boot base (processExitWithCode code) := by
  refine Keeps.bind (shaped_gets _).keeps (fun k => ?_)
  split
  · exact (Shaped.fail _).keeps
  split
  · exact (Shaped.fail _).keeps
  refine Keeps.bind (Shaped.keeps ?_) (fun _ => ?_)
  · exact shaped_setProc _ (fun _ => ⟨rfl, rfl, rfl, rfl⟩)
  refine Keeps.bind (Shaped.keeps ?_) (fun _ => keeps_processTerminate _)
  exact fun k => Eff.post_of_eq rfl
    ⟨rfl, rfl, fun _ => rfl, fun _ => rfl, fun _ => rfl, fun _ => rfl⟩

/-! ## Runs -/

/-- The address spaces of the processes in use. -/
def liveSpaces (k : Kernel) : List Nat :=
  ((List.range processMax).filter (fun i =>
    (k.procs i).inUse && (k.procs i).addrspace != 0)).map (fun i => (k.procs i).addrspace)

/-- The calls that make up the life of processes, and what user programs do to
their own pages. -/
inductive Op
  | spawn (file : Except Nstatus FileView)
  | create (entryPoint : Nat)
  | brk (p : Nat) (increment : Int)
  | terminate (pid : Nat)
  | exit (code : Int)
  | reap
  | schedule
  | sleep (ticks : Nat)
  | tick
  | write (f : Nat) (words : Nat → Nat)

/-- The heap call is made for a process in use, and a program writes to a frame
that one of its pages is bound to. -/
def Op.Allowed (k : Kernel) : Op → Prop
  | .brk p _ => p < processMax ∧ (k.procs p).inUse = true
  | .write f _ => ∃ s ∈ liveSpaces k, ∃ v, UserPage v ∧ ∃ flags,
      translate k.memory.mem s v = some (f, flags)
  | _ => True

/-- The state after a call. -/
def Op.run (k : Kernel) : Op → Kernel
  | .spawn file => (processSpawn file k).2
  | .create entryPoint => (processCreate entryPoint k).2
  | .brk p increment => (umemBrk p increment k).2
  | .terminate pid => (processTerminate pid k).2
  | .exit code => (processExitWithCode code k).2
  | .reap => (processReap k).2
  | .schedule => (Process.schedule k).2
  | .sleep ticks => (processSleepTicks ticks k).2
  | .tick => (timerTick k).2
  | .write f words =>
      { k with memory := { k.memory with mem := Function.update k.memory.mem f words } }

/-- One step of a run. -/
def Step (k k' : Kernel) : Prop :=
  ∃ op, Op.Allowed k op ∧ k' = op.run k

/-- The states a run passes through. -/
def Run : Kernel → Kernel → Prop :=
  Relation.ReflTransGen Step

/-- The state after boot: the free list holds the given frames, and the process
table has just been set up. -/
structure Started (boot : Finset Nat) (k : Kernel) : Prop where
  allocator : ∃ free, Allocator k.memory free ∧ free.toFinset = boot
  frame : ∀ f ∈ boot, Frame f
  kernel : k.memory.kernelPml4 ∉ boot
  table : ∃ k₀, k₀.processList = none ∧ k = (processInit k₀).2

theorem mem_liveSpaces {s : Nat} : s ∈ liveSpaces k ↔
    s ≠ 0 ∧ ∃ i, i < processMax ∧ (k.procs i).inUse = true ∧ (k.procs i).addrspace = s := by
  simp only [liveSpaces, List.mem_map, List.mem_filter, List.mem_range, Bool.and_eq_true,
    bne_iff_ne]
  constructor
  · rintro ⟨i, ⟨hi, huse, hne⟩, rfl⟩
    exact ⟨hne, i, hi, huse, rfl⟩
  · rintro ⟨hne, i, hi, huse, rfl⟩
    exact ⟨i, ⟨hi, huse, hne⟩, rfl⟩

/-- The live address spaces are those of the account. -/
theorem Owned.mem_spaces (h : Owned boot base ∅ k l) {s : Nat} :
    s ∈ (accountOf boot base ∅ k l).spaces ↔ s ∈ liveSpaces k := by
  simp only [accountOf, Finset.union_empty, mem_slotSpaces, mem_liveSpaces, h.members, and_assoc]

theorem Started.owned (h : Started boot k) : Owned boot k.memory.mem ∅ k [0] := by
  obtain ⟨k₀, hnone, rfl⟩ := h.table
  obtain ⟨free, halloc, hfree⟩ := h.allocator
  have hk : (processInit k₀).2 = { k₀ with
      procs := Function.update (fun _ => Proc.zero) 0
        { Proc.zero with state := .running, inUse := true }
      processList := some 0
      current := some 0 } := by
    simp [processInit, hnone]
  have hmem : ∀ f, f ∈ free ↔ f ∈ boot := by
    intro f
    rw [← hfree, List.mem_toFinset]
  have hspaces : (accountOf boot (processInit k₀).2.memory.mem ∅ (processInit k₀).2 [0]).spaces =
      ∅ := by
    simp [accountOf, slotSpaces, hk, Proc.zero]
  refine ⟨?_, ?_, ?_, ?_, ?_, free, ?_⟩
  · simp [hk, Linked, nextOf, Proc.zero]
  · intro i
    by_cases hi : i = 0
    · subst hi
      simp [hk, processMax]
    · simp [hk, hi, Proc.zero]
  · simp [hk, Proc.zero]
  · simp
  · simp
  · exact {
      allocator := halloc
      frame := h.frame
      free_boot := fun f hf => (hmem f).mp hf
      held_boot := by simp [accountOf]
      held_free := by simp [accountOf]
      owned := by simp [hspaces]
      unique := by simp [hspaces]
      covered := fun f hf => Or.inl ((hmem f).mpr hf)
      tables := by simp [hspaces]
      leaves := by simp [hspaces]
      outside := fun _ _ => rfl
      kernel := h.kernel
      upper := by simp [hspaces] }

/-- Every allowed step keeps the invariant. -/
theorem Owned.step (h : Owned boot base ∅ k l) {op : Op} (hop : Op.Allowed k op) :
    ∃ l', Owned boot base ∅ (op.run k) l' := by
  cases op with
  | spawn file => exact (processSpawn_owned h file).1
  | create entryPoint => exact keeps_processCreate entryPoint k l h
  | brk p increment => exact (umemBrk_owned h ((h.members p).mpr hop) increment).1
  | terminate pid => exact keeps_processTerminate pid k l h
  | exit code => exact keeps_processExitWithCode code k l h
  | reap => exact keeps_processReap k l h
  | schedule => exact shaped_schedule.keeps k l h
  | sleep ticks => exact (shaped_processSleepTicks ticks).keeps k l h
  | tick =>
      have hshape : SameShape k (Op.run k .tick) :=
        ⟨rfl, rfl, fun _ => rfl, fun _ => rfl, fun _ => rfl, fun _ => rfl⟩
      exact ⟨l, hshape.owned h⟩
  | write f words =>
      obtain ⟨s, hs, v, hv, flags, htr⟩ := hop
      obtain ⟨free, hled⟩ := h.ledger
      have hsp := h.mem_spaces.mpr hs
      have hdata : DataFrame k.memory (accountOf boot base ∅ k l) f := by
        refine Or.inr ⟨s, hsp, leafPos v, userPos_leafPos hv.1, rfl, ?_⟩
        rw [hled.translate_user hsp hv.1] at htr
        rw [tableAt_of_ne_nil s (by simp [leafPos])]
        cases he : entryAt k.memory.mem s (leafPos v) with
        | none =>
            rw [he] at htr
            cases htr
        | some e =>
            rw [he] at htr
            cases htr
            rfl
      obtain ⟨hled', _, _⟩ := hled.scribble hdata words
      exact ⟨l, h.chain, h.members, h.idle, h.inj, h.apart, free, hled'⟩

theorem Owned.run {k' : Kernel} (h : Owned boot base ∅ k l) (hr : Run k k') :
    ∃ l', Owned boot base ∅ k' l' := by
  induction hr with
  | refl => exact ⟨l, h⟩
  | tail _ hstep ih =>
      obtain ⟨l', h'⟩ := ih
      obtain ⟨op, hop, rfl⟩ := hstep
      exact h'.step hop

/-! ## The division of the frames -/

/-- The frames of the live address spaces: page tables and mapped data. -/
def ownedFrames (k : Kernel) : List Nat :=
  (liveSpaces k).flatMap (spaceFrames k.memory.mem)

/-- The boot frames are divided among the free list and the live address spaces,
each in one place and once. -/
def Partition (boot : Finset Nat) (k : Kernel) : Prop :=
  ∃ free, FreeList k.memory.mem k.memory.freeHead free ∧ (free ++ ownedFrames k).Nodup ∧
    ∀ f, f ∈ free ++ ownedFrames k ↔ f ∈ boot

theorem Owned.liveSpaces_nodup (h : Owned boot base ∅ k l) : (liveSpaces k).Nodup := by
  refine List.Nodup.map_on ?_ (List.nodup_range.filter _)
  intro i hi j hj heq
  simp only [List.mem_filter, List.mem_range, Bool.and_eq_true, bne_iff_ne] at hi hj
  exact h.inj i ((h.members i).mpr ⟨hi.1, hi.2.1⟩) j ((h.members j).mpr ⟨hj.1, hj.2.1⟩)
    hi.2.2 heq

/-- The frames of the live address spaces are those at their positions. -/
theorem Owned.mem_ownedFrames (h : Owned boot base ∅ k l) {free : List Nat}
    (hled : Ledger k.memory (accountOf boot base ∅ k l) free) (f : Nat) :
    f ∈ ownedFrames k ↔ ∃ s ∈ (accountOf boot base ∅ k l).spaces,
      ∃ p, UserPos p ∧ tableAt k.memory.mem s p = some f := by
  simp only [ownedFrames, List.mem_flatMap]
  constructor
  · rintro ⟨s, hs, hf⟩
    have hsp := h.mem_spaces.mpr hs
    exact ⟨s, hsp, (hled.mem_spaceFrames hsp f).mp hf⟩
  · rintro ⟨s, hs, hf⟩
    exact ⟨s, h.mem_spaces.mp hs, (hled.mem_spaceFrames hs f).mpr hf⟩

theorem Owned.ownedFrames_nodup (h : Owned boot base ∅ k l) {free : List Nat}
    (hled : Ledger k.memory (accountOf boot base ∅ k l) free) : (ownedFrames k).Nodup := by
  refine List.nodup_flatMap.mpr ⟨?_, ?_⟩
  · intro s hs
    exact hled.spaceFrames_nodup (h.mem_spaces.mpr hs)
  · refine h.liveSpaces_nodup.imp_of_mem ?_
    intro s t hs ht hne f hfs hft
    obtain ⟨p, hp, hsp⟩ := (hled.mem_spaceFrames (h.mem_spaces.mpr hs) f).mp hfs
    obtain ⟨q, hq, htq⟩ := (hled.mem_spaceFrames (h.mem_spaces.mpr ht) f).mp hft
    exact hne (hled.unique s (h.mem_spaces.mpr hs) t (h.mem_spaces.mpr ht) p q hp hq f
      hsp htq).1

theorem Owned.partition (h : Owned boot base ∅ k l) : Partition boot k := by
  obtain ⟨free, hled⟩ := h.ledger
  have hmem := h.mem_ownedFrames hled
  refine ⟨free, hled.allocator.list, ?_, ?_⟩
  · refine List.nodup_append.mpr ⟨hled.allocator.nodup, h.ownedFrames_nodup hled, ?_⟩
    rintro f hf g hg rfl
    obtain ⟨s, hs, p, hp, ht⟩ := (hmem f).mp hg
    exact (hled.owned s hs p hp f ht).2.1 hf
  · intro f
    rw [List.mem_append, hmem f]
    constructor
    · rintro (hf | ⟨s, hs, p, hp, ht⟩)
      · exact hled.free_boot f hf
      · exact (hled.owned s hs p hp f ht).1
    · intro hf
      rcases hled.covered f hf with hf | hf | hf
      · exact Or.inl hf
      · exact absurd hf (Finset.notMem_empty f)
      · exact Or.inr hf

/-- The live address spaces and the frames of each are the same in both states. -/
structure Undisturbed (k k' : Kernel) : Prop where
  spaces : ∀ s, s ∈ liveSpaces k' ↔ s ∈ liveSpaces k
  frames : ∀ s ∈ liveSpaces k, ∀ f,
    f ∈ spaceFrames k'.memory.mem s ↔ f ∈ spaceFrames k.memory.mem s

theorem Undisturbed.mem_ownedFrames {k' : Kernel} (h : Undisturbed k k') (f : Nat) :
    f ∈ ownedFrames k' ↔ f ∈ ownedFrames k := by
  simp only [ownedFrames, List.mem_flatMap]
  constructor
  · rintro ⟨s, hs, hf⟩
    have hs' := (h.spaces s).mp hs
    exact ⟨s, hs', (h.frames s hs' f).mp hf⟩
  · rintro ⟨s, hs, hf⟩
    exact ⟨s, (h.spaces s).mpr hs, (h.frames s hs f).mpr hf⟩

/-- Two divided states with the same owned frames have the same free frames. -/
theorem Partition.free_eq {k' : Kernel} (h : Partition boot k) (h' : Partition boot k')
    (hsame : Undisturbed k k') {fs gs : List Nat}
    (hfs : FreeList k.memory.mem k.memory.freeHead fs)
    (hgs : FreeList k'.memory.mem k'.memory.freeHead gs) (f : Nat) : f ∈ gs ↔ f ∈ fs := by
  obtain ⟨free, hlist, hnodup, hboot⟩ := h
  obtain ⟨free', hlist', hnodup', hboot'⟩ := h'
  obtain rfl := hfs.unique hlist
  obtain rfl := hgs.unique hlist'
  have howned := hsame.mem_ownedFrames f
  have hall : f ∈ gs ++ ownedFrames k' ↔ f ∈ fs ++ ownedFrames k := by
    rw [hboot f, hboot' f]
  have hdisj := (List.nodup_append.mp hnodup).2.2
  have hdisj' := (List.nodup_append.mp hnodup').2.2
  rw [List.mem_append, List.mem_append, howned] at hall
  constructor
  · intro hf
    rcases hall.mp (Or.inl hf) with hf' | hf'
    · exact hf'
    · exact absurd rfl (hdisj' f hf f (howned.mpr hf'))
  · intro hf
    rcases hall.mpr (Or.inl hf) with hf' | hf'
    · exact hf'
    · exact absurd rfl (hdisj f hf f hf')

/-- Frames are conserved by the life cycle of processes.  In every state of every
run after boot the boot frames are divided among the free list and the live
address spaces; and once a spawned process has exited and been reaped, with the
other address spaces as they were before the spawn, the free frames are again the
ones before the spawn. -/
theorem frames_conserved {k₀ : Kernel} (h : Started boot k₀) (hr : Run k₀ k) :
    Partition boot k ∧
    ∀ file pid k', (processSpawn file k).1 = .ok pid → Run (processSpawn file k).2 k' →
      Undisturbed k k' → ∀ fs gs, FreeList k.memory.mem k.memory.freeHead fs →
        FreeList k'.memory.mem k'.memory.freeHead gs → ∀ f, f ∈ gs ↔ f ∈ fs := by
  obtain ⟨l, hk⟩ := h.owned.run hr
  refine ⟨hk.partition, ?_⟩
  intro file pid k' _ hrun hsame fs gs hfs hgs
  obtain ⟨l₁, hk₁⟩ := hk.step (show Op.Allowed k (.spawn file) from trivial)
  obtain ⟨l₂, hk₂⟩ := hk₁.run hrun
  exact hk.partition.free_eq hk₂.partition hsame hfs hgs

/-! ## A small machine -/

/-- The little-endian bytes of a field. -/
def leBytes (n width : Nat) : List UInt8 :=
  (List.range width).map (fun j => UInt8.ofNat (n / 256 ^ j))

/-- An executable with one segment of four bytes of code and twelve zero bytes. -/
def smallImage : List UInt8 :=
  leBytes elfMagic 4 ++ [2, 1, 1, 0] ++ leBytes 0 8 ++
    leBytes etExec 2 ++ leBytes emX8664 2 ++ leBytes 1 4 ++ leBytes 0x10000 8 ++
    leBytes elfHeaderSize 8 ++ leBytes 0 8 ++ leBytes 0 4 ++ leBytes 64 2 ++
    leBytes elfPhdrSize 2 ++ leBytes 1 2 ++ leBytes 0 6 ++
    leBytes ptLoad 4 ++ leBytes 5 4 ++ leBytes 120 8 ++ leBytes 0x10000 8 ++
    leBytes 0 8 ++ leBytes 4 8 ++ leBytes 16 8 ++ leBytes 0 8 ++ [0xEB, 0xFE, 0x90, 0x90]

def smallFile : FileView where
  size := .ok smallImage.length
  read offset len := .ok ((smallImage.drop offset).take len)

/-- A machine with thirty-two free frames. -/
def smallBoot : List Nat :=
  (List.range' 1 32).map (fun i => i * 0x1000)

def smallKernel : Kernel :=
  (processInit {
    memory := {
      mem := fun f i => if i = 0 ∧ f < 0x20000 then f + 0x1000 else 0
      freeHead := 0x1000
      freeCount := 32
      nxSupported := true
      kernelPml4 := 0x100000 }
    procs := fun _ => Proc.zero
    processList := none
    current := none
    nextPid := 1
    tick := 0
    lastExitCode := 0 }).2

theorem started_smallKernel : Started smallBoot.toFinset smallKernel where
  allocator := ⟨smallBoot, ⟨by decide +kernel, by decide +kernel⟩, rfl⟩
  frame := by
    intro f hf
    rw [List.mem_toFinset, smallBoot, List.mem_map] at hf
    obtain ⟨i, hi, rfl⟩ := hf
    rw [List.mem_range'_1] at hi
    refine ⟨by omega, by simp [pageSize], by omega⟩
  kernel := by decide +kernel
  table := ⟨_, rfl, rfl⟩

/-- The machine after the program has been spawned and terminated. -/
def smallFinished : Kernel :=
  Op.run (processSpawn (.ok smallFile) smallKernel).2 (.terminate 1)

theorem frames_conserved_small :
    (processSpawn (.ok smallFile) smallKernel).1.toOption = some 1 ∧
      Partition smallBoot.toFinset smallKernel ∧
      ∀ fs gs, FreeList smallKernel.memory.mem smallKernel.memory.freeHead fs →
        FreeList smallFinished.memory.mem smallFinished.memory.freeHead gs →
        ∀ f, f ∈ gs ↔ f ∈ fs := by
  have hspawn : (processSpawn (.ok smallFile) smallKernel).1.toOption = some 1 := by
    decide +kernel
  have hok : (processSpawn (.ok smallFile) smallKernel).1 = .ok 1 := by
    cases hres : (processSpawn (.ok smallFile) smallKernel).1 with
    | error e =>
        rw [hres] at hspawn
        cases hspawn
    | ok pid =>
        rw [hres] at hspawn
        cases hspawn
        rfl
  have hbefore : liveSpaces smallKernel = [] := by decide +kernel
  have hafter : liveSpaces smallFinished = [] := by decide +kernel
  have hsame : Undisturbed smallKernel smallFinished := by
    refine ⟨fun s => by rw [hbefore, hafter], fun s hs => ?_⟩
    rw [hbefore] at hs
    cases hs
  have hall := frames_conserved started_smallKernel Relation.ReflTransGen.refl
  refine ⟨hspawn, hall.1, ?_⟩
  exact hall.2 (.ok smallFile) 1 smallFinished hok
    (Relation.ReflTransGen.single ⟨.terminate 1, trivial, rfl⟩) hsame

end Process
end Nyxis
