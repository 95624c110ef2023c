import Nyxis.Process.Table

/-!
# Which process owns which frame

Between two kernel calls every frame handed out at boot is free or belongs to the
address space of exactly one process in use.  A spawn that is under way owns one
more address space, which ends up in the table or is given back.

Main results:

- Definition {lit}`Owned`: the invariant.
- Theorem {lit}`processReap_owned`: reaping gives back the address spaces of the
  terminated processes.
- Theorem {lit}`processSpawn_owned`: a spawn keeps the invariant, wherever it
  stops.
-/

namespace Nyxis
namespace Process

open Mm

/-- The address spaces of the processes in the given slots. -/
def slotSpaces (procs : Nat → Proc) (l : List Nat) : Finset Nat :=
  (l.toFinset.image (fun i => (procs i).addrspace)).erase 0

theorem mem_slotSpaces {procs : Nat → Proc} {l : List Nat} {s : Nat} :
    s ∈ slotSpaces procs l ↔ s ≠ 0 ∧ ∃ i ∈ l, (procs i).addrspace = s := by
  simp [slotSpaces]

/-- The account of a state: the address spaces of the processes in use and those
under construction. -/
def accountOf (boot : Finset Nat) (base : Nat → Nat → Nat) (extra : Finset Nat)
    (k : Kernel) (l : List Nat) : Account :=
  { boot := boot, base := base, held := ∅, spaces := slotSpaces k.procs l ∪ extra }

/-- The chain of the process table. -/
abbrev nextOf (procs : Nat → Proc) (i : Nat) : Option Nat :=
  (procs i).next

/-- The invariant: the chain holds the slots in use, the idle process stands in
front, and the address spaces of the processes account for all frames. -/
structure Owned (boot : Finset Nat) (base : Nat → Nat → Nat) (extra : Finset Nat)
    (k : Kernel) (l : List Nat) : Prop where
  chain : Linked (nextOf k.procs) k.processList l
  members : ∀ i, i ∈ l ↔ i < processMax ∧ (k.procs i).inUse = true
  idle : k.processList = some 0 ∧ (k.procs 0).pid = 0
  inj : ∀ i ∈ l, ∀ j ∈ l, (k.procs i).addrspace ≠ 0 →
    (k.procs i).addrspace = (k.procs j).addrspace → i = j
  apart : ∀ i ∈ l, (k.procs i).addrspace ∉ extra
  ledger : ∃ free, Ledger k.memory (accountOf boot base extra k l) free

variable {boot : Finset Nat} {base : Nat → Nat → Nat} {extra : Finset Nat}
  {k : Kernel} {l : List Nat}

/-- The part of the invariant that is about the chain. -/
structure Chained (k : Kernel) (l : List Nat) : Prop where
  chain : Linked (nextOf k.procs) k.processList l
  members : ∀ i, i ∈ l ↔ i < processMax ∧ (k.procs i).inUse = true
  idle : k.processList = some 0 ∧ (k.procs 0).pid = 0

theorem Owned.chained (h : Owned boot base extra k l) : Chained k l :=
  ⟨h.chain, h.members, h.idle⟩

theorem Chained.length_le (h : Chained k l) : l.length ≤ processMax := by
  have hsub : l.toFinset ⊆ Finset.range processMax := by
    intro i hi
    rw [List.mem_toFinset, h.members i] at hi
    exact Finset.mem_range.mpr hi.1
  have hcard := Finset.card_le_card hsub
  rw [List.toFinset_card_of_nodup h.chain.nodup, Finset.card_range] at hcard
  exact hcard

/-- The idle process stands in front. -/
theorem Chained.eq_cons (h : Chained k l) : ∃ rest, l = 0 :: rest := by
  have := h.chain.head_eq
  rw [h.idle.1] at this
  cases l with
  | nil => cases this
  | cons x rest =>
      rw [List.head?_cons, Option.some.injEq] at this
      exact ⟨rest, by rw [this]⟩

/-! ## Calls that only change the state of processes -/

/-- What ownership depends on is the same in both states. -/
structure SameShape (k k' : Kernel) : Prop where
  memory : k'.memory = k.memory
  list : k'.processList = k.processList
  next : ∀ i, (k'.procs i).next = (k.procs i).next
  inUse : ∀ i, (k'.procs i).inUse = (k.procs i).inUse
  addrspace : ∀ i, (k'.procs i).addrspace = (k.procs i).addrspace
  pid : ∀ i, (k'.procs i).pid = (k.procs i).pid

theorem SameShape.refl (k : Kernel) : SameShape k k :=
  ⟨rfl, rfl, fun _ => rfl, fun _ => rfl, fun _ => rfl, fun _ => rfl⟩

theorem SameShape.trans {k' k'' : Kernel} (h : SameShape k k') (h' : SameShape k' k'') :
    SameShape k k'' where
  memory := h'.memory.trans h.memory
  list := h'.list.trans h.list
  next i := (h'.next i).trans (h.next i)
  inUse i := (h'.inUse i).trans (h.inUse i)
  addrspace i := (h'.addrspace i).trans (h.addrspace i)
  pid i := (h'.pid i).trans (h.pid i)

theorem SameShape.slotSpaces {k' : Kernel} (h : SameShape k k') (l : List Nat) :
    slotSpaces k'.procs l = Process.slotSpaces k.procs l := by
  ext s
  simp only [mem_slotSpaces, h.addrspace]

theorem SameShape.owned {k' : Kernel} (h : SameShape k k') (ho : Owned boot base extra k l) :
    Owned boot base extra k' l where
  chain := by
    rw [h.list]
    exact ho.chain.congr (fun i _ => h.next i)
  members i := by rw [ho.members i, h.inUse i]
  idle := ⟨h.list.trans ho.idle.1, (h.pid 0).trans ho.idle.2⟩
  inj i hi j hj := by
    rw [h.addrspace i, h.addrspace j]
    exact ho.inj i hi j hj
  apart i hi := by
    rw [h.addrspace i]
    exact ho.apart i hi
  ledger := by
    obtain ⟨free, hled⟩ := ho.ledger
    refine ⟨free, ?_⟩
    rw [accountOf, h.slotSpaces, h.memory]
    exact hled

/-- A computation that does not change the shape. -/
def Shaped {α : Type} (c : KernelM α) : Prop :=
  ∀ k, Eff.Post c k (fun _ k' => SameShape k k')

theorem Shaped.pure {α : Type} (x : α) : Shaped (pure x : KernelM α) :=
  fun k => Eff.post_of_eq rfl (SameShape.refl k)

theorem Shaped.fail {α : Type} (e : Stop) : Shaped (Eff.fail e : KernelM α) :=
  fun k => Eff.post_of_eq rfl (SameShape.refl k)

theorem Shaped.bind {α β : Type} {c : KernelM α} {f : α → KernelM β} (hc : Shaped c)
    (hf : ∀ x, Shaped (f x)) : Shaped (c >>= f) := by
  intro k
  refine Eff.post_bind (hc k) (fun _ _ h => h) (fun x k' h => ?_)
  exact Eff.post_mono (hf x k') (fun _ _ h' => h.trans h')

theorem shaped_gets {α : Type} (g : Kernel → α) : Shaped (Eff.gets g) :=
  fun k => Eff.post_of_eq rfl (SameShape.refl k)

theorem Shaped.gets_bind {α β : Type} {g : Kernel → α} {f : α → KernelM β}
    (hf : ∀ x, Shaped (f x)) : Shaped (Eff.gets g >>= f) :=
  Shaped.bind (shaped_gets g) hf

theorem Shaped.attemptStatus {α : Type} {c : KernelM α} (hc : Shaped c) :
    Shaped (attemptStatus c) := by
  intro k
  have h := hc k
  unfold Eff.Post at h ⊢
  unfold Nyxis.attemptStatus
  cases hrun : c k with
  | mk r k' =>
      rw [hrun] at h
      rcases r with e | x
      · cases e <;> exact h
      · exact h

/-- Changing the fields of one process that ownership does not depend on. -/
theorem shaped_setProc (i : Nat) {f : Proc → Proc}
    (hf : ∀ r, (f r).next = r.next ∧ (f r).inUse = r.inUse ∧
      (f r).addrspace = r.addrspace ∧ (f r).pid = r.pid) : Shaped (setProc i f) := by
  intro k
  refine Eff.post_of_eq rfl ⟨rfl, rfl, ?_, ?_, ?_, ?_⟩
  all_goals
    intro j
    by_cases hj : j = i
    · subst hj
      simp [hf (k.procs j)]
    · simp [hj]

theorem shaped_processSwitch (p : Nat) : Shaped (processSwitch p) := by
  refine Shaped.gets_bind (fun proc => Shaped.gets_bind (fun old => ?_))
  split
  · exact Shaped.fail _
  split
  · exact Shaped.pure ()
  have hlast : Shaped (do
      Eff.modify (fun k => { k with current := some p })
      setProc p (fun r => { r with state := .running }) : KernelM Unit) :=
    Shaped.bind (fun k => Eff.post_of_eq rfl ⟨rfl, rfl, fun _ => rfl, fun _ => rfl,
      fun _ => rfl, fun _ => rfl⟩)
      (fun _ => shaped_setProc p (fun _ => ⟨rfl, rfl, rfl, rfl⟩))
  cases old with
  | none => exact hlast
  | some o =>
      refine Shaped.bind (shaped_setProc o (fun r => ?_)) (fun _ => hlast)
      split <;> exact ⟨rfl, rfl, rfl, rfl⟩

theorem shaped_pickLoop (current head fuel p : Nat) :
    Shaped (pickLoop current head fuel p) := by
  induction fuel generalizing p with
  | zero =>
      unfold pickLoop
      split
      · exact Shaped.pure none
      · exact Shaped.fail _
  | succ fuel ih =>
      unfold pickLoop
      split
      · exact Shaped.pure none
      · refine Shaped.gets_bind (fun k => Shaped.bind (shaped_setProc p (fun r => ?_)) ?_)
        · unfold wake
          split <;> exact ⟨rfl, rfl, rfl, rfl⟩
        · refine fun _ => Shaped.gets_bind (fun proc => ?_)
          split
          · exact Shaped.pure _
          · exact ih _

/-- Scheduling changes who runs, not who owns what. -/
theorem shaped_schedule : Shaped schedule := by
  refine Shaped.gets_bind (fun k => ?_)
  split
  · refine Shaped.bind (Shaped.gets_bind (fun proc => shaped_pickLoop _ _ _ _)) (fun next => ?_)
    cases next with
    | none => exact Shaped.pure ()
    | some p =>
        exact Shaped.bind (shaped_processSwitch p).attemptStatus (fun _ => Shaped.pure ())
  · exact Shaped.pure ()

theorem shaped_processSleepTicks (ticks : Nat) : Shaped (processSleepTicks ticks) := by
  refine Shaped.gets_bind (fun k => ?_)
  split
  · exact Shaped.fail _
  split
  · exact Shaped.fail _
  refine Shaped.bind (shaped_setProc _ (fun _ => ⟨rfl, rfl, rfl, rfl⟩)) (fun _ => ?_)
  refine Shaped.bind shaped_schedule (fun _ => Shaped.gets_bind (fun k' => ?_))
  split
  · exact Shaped.bind (shaped_setProc _ (fun _ => ⟨rfl, rfl, rfl, rfl⟩)) (fun _ => Shaped.fail _)
  · exact Shaped.pure ()

theorem shaped_findPid (pid fuel : Nat) (p : Option Nat) : Shaped (findPid pid fuel p) := by
  induction fuel generalizing p with
  | zero => cases p <;> [exact Shaped.pure none; exact Shaped.fail _]
  | succ fuel ih =>
      cases p with
      | none => exact Shaped.pure none
      | some p =>
          refine Shaped.gets_bind (fun proc => ?_)
          split
          · exact Shaped.pure _
          · exact ih _

theorem shaped_findTail (fuel tail : Nat) : Shaped (findTail fuel tail) := by
  induction fuel generalizing tail with
  | zero => exact Shaped.fail _
  | succ fuel ih =>
      refine Shaped.gets_bind (fun proc => ?_)
      split
      · exact Shaped.pure _
      · exact ih _

/-! ## Memory calls -/

/-- A tidy memory call on one of the address spaces keeps the invariant. -/
theorem Owned.memory_post {α : Type} (h : Owned boot base extra k l) {s : Nat} {c : MemM α}
    (hc : Tidy (accountOf boot base extra k l) s c) :
    Eff.Post (onMemory c) k (fun r k' => Owned boot base extra k' l ∧
      k'.procs = k.procs ∧ r ≠ .error .panic ∧ r ≠ .error .hang) := by
  obtain ⟨free, hled⟩ := h.ledger
  have hpost := hc k.memory free hled
  unfold Eff.Post at hpost ⊢
  unfold onMemory
  cases hrun : c k.memory with
  | mk r m =>
      rw [hrun] at hpost
      have howned : Owned boot base extra { k with memory := m } l :=
        ⟨h.chain, h.members, h.idle, h.inj, h.apart, hpost.ledger⟩
      cases r with
      | error e => exact ⟨howned, rfl, by simp, by simp⟩
      | ok x => exact ⟨howned, rfl, by simp, by simp⟩

/-! ## Reaping -/

theorem nextOf_update (procs : Nat → Proc) (q : Nat) (n : Option Nat) :
    nextOf (Function.update procs q { procs q with next := n }) =
      Function.update (nextOf procs) q n := by
  funext i
  by_cases hi : i = q
  · subst hi
    simp [nextOf]
  · simp [nextOf, hi]

/-- The state after the slot behind {lit}`q` has been taken out and cleared. -/
def unlinked (k : Kernel) (q p : Nat) (m : Memory) : Kernel :=
  let procs := Function.update k.procs q { k.procs q with next := (k.procs p).next }
  { k with procs := Function.update procs p Proc.zero, memory := m }

/-- The slots that are left when one is taken out. -/
theorem Chained.mem_unlink {l₁ l₂ : List Nat} {q p : Nat}
    (h : Chained k (l₁ ++ q :: p :: l₂)) {i : Nat} :
    i ∈ l₁ ++ q :: l₂ ↔ i ∈ l₁ ++ q :: p :: l₂ ∧ i ≠ p := by
  have hparts := List.nodup_append.mp h.chain.nodup
  obtain ⟨hqnot, hpnodup⟩ := List.nodup_cons.mp hparts.2.1
  have hpl : p ∉ l₁ ++ q :: l₂ := by
    intro hcon
    rcases List.mem_append.mp hcon with hcon | hcon
    · exact hparts.2.2 p hcon p (by simp) rfl
    · rcases List.mem_cons.mp hcon with hcon | hcon
      · exact hqnot (hcon ▸ List.mem_cons_self ..)
      · exact (List.nodup_cons.mp hpnodup).1 hcon
  constructor
  · intro hi
    refine ⟨?_, fun heq => hpl (heq ▸ hi)⟩
    simp only [List.mem_append, List.mem_cons] at hi ⊢
    tauto
  · rintro ⟨hi, hne⟩
    simp only [List.mem_append, List.mem_cons] at hi ⊢
    tauto

theorem unlinked_of_ne {q p i : Nat} {m : Memory} (hi : i ≠ p) :
    ∃ n, (unlinked k q p m).procs i = { k.procs i with next := n } := by
  by_cases hiq : i = q
  · subst hiq
    refine ⟨(k.procs p).next, ?_⟩
    simp [unlinked, hi]
  · refine ⟨(k.procs i).next, ?_⟩
    simp [unlinked, hi, hiq]

/-- Taking a process out of the chain. -/
theorem Chained.unlink {l₁ l₂ : List Nat} {q p : Nat}
    (h : Chained k (l₁ ++ q :: p :: l₂)) (m : Memory) (hpid : (k.procs p).pid ≠ 0) :
    Chained (unlinked k q p m) (l₁ ++ q :: l₂) := by
  have hp0 : p ≠ 0 := fun heq => hpid (heq ▸ h.idle.2)
  refine ⟨?_, ?_, ?_⟩
  · have hlink := h.chain.unlink
    rw [← nextOf_update] at hlink
    refine hlink.congr (fun i hi => ?_)
    have hip : i ≠ p := (h.mem_unlink.mp hi).2
    simp [unlinked, nextOf, hip]
  · intro i
    rw [h.mem_unlink, h.members i]
    by_cases hip : i = p
    · subst hip
      simp [unlinked, Proc.zero]
    · obtain ⟨n, hn⟩ := unlinked_of_ne (k := k) (q := q) (m := m) hip
      rw [hn]
      exact ⟨fun hi => hi.1, fun hi => ⟨hi, hip⟩⟩
  · obtain ⟨n, hn⟩ := unlinked_of_ne (k := k) (q := q) (m := m) (Ne.symm hp0)
    refine ⟨h.idle.1, ?_⟩
    rw [hn]
    exact h.idle.2

/-- Taking a process out of the chain and giving back its address space keeps the
invariant. -/
theorem Owned.unlink {l₁ l₂ : List Nat} {q p : Nat}
    (h : Owned boot base extra k (l₁ ++ q :: p :: l₂)) {m : Memory}
    (hmem : ∃ free, Ledger m { accountOf boot base extra k (l₁ ++ q :: p :: l₂) with
      spaces := (slotSpaces k.procs (l₁ ++ q :: p :: l₂) ∪ extra).erase
        (k.procs p).addrspace } free) (hpid : (k.procs p).pid ≠ 0) :
    Owned boot base extra (unlinked k q p m) (l₁ ++ q :: l₂) := by
  have hchained := h.chained.unlink m hpid
  have hsub : ∀ i ∈ l₁ ++ q :: l₂, i ∈ l₁ ++ q :: p :: l₂ ∧ i ≠ p :=
    fun i hi => h.chained.mem_unlink.mp hi
  have hspace : ∀ i ∈ l₁ ++ q :: l₂,
      ((unlinked k q p m).procs i).addrspace = (k.procs i).addrspace := by
    intro i hi
    obtain ⟨n, hn⟩ := unlinked_of_ne (k := k) (q := q) (m := m) (hsub i hi).2
    rw [hn]
  refine ⟨hchained.chain, hchained.members, hchained.idle, ?_, ?_, ?_⟩
  · intro i hi j hj
    rw [hspace i hi, hspace j hj]
    exact h.inj i (hsub i hi).1 j (hsub j hj).1
  · intro i hi
    rw [hspace i hi]
    exact h.apart i (hsub i hi).1
  · obtain ⟨free, hled⟩ := hmem
    refine ⟨free, ?_⟩
    have hspaces : slotSpaces (unlinked k q p m).procs (l₁ ++ q :: l₂) ∪ extra =
        (slotSpaces k.procs (l₁ ++ q :: p :: l₂) ∪ extra).erase (k.procs p).addrspace := by
      have hpmem : p ∈ l₁ ++ q :: p :: l₂ := by simp
      ext s
      simp only [Finset.mem_union, Finset.mem_erase, mem_slotSpaces]
      constructor
      · rintro (⟨hs, i, hi, his⟩ | hs)
        · rw [hspace i hi] at his
          refine ⟨?_, Or.inl ⟨hs, i, (hsub i hi).1, his⟩⟩
          intro heq
          exact (hsub i hi).2 (h.inj i (hsub i hi).1 p hpmem (his ▸ hs) (his.trans heq))
        · refine ⟨?_, Or.inr hs⟩
          intro heq
          exact h.apart p hpmem (heq ▸ hs)
      · rintro ⟨hne, ⟨hs, i, hi, his⟩ | hs⟩
        · have hip : i ≠ p := by
            rintro rfl
            exact hne his.symm
          have hi' := h.chained.mem_unlink.mpr ⟨hi, hip⟩
          exact Or.inl ⟨hs, i, hi', (hspace i hi').trans his⟩
        · exact Or.inr hs
    rw [accountOf, hspaces]
    exact hled

theorem onMemory_ok {α : Type} {c : MemM α} {x : α} {m : Memory}
    (h : c k.memory = (.ok x, m)) : onMemory c k = (.ok x, { k with memory := m }) := by
  simp [onMemory, h]

/-- One removal of the reaping loop. -/
theorem Owned.reapLoop_remove {l₁ l₂ : List Nat} {q p : Nat}
    (h : Owned boot base extra k (l₁ ++ q :: p :: l₂)) (fuel : Nat)
    (hreap : (k.procs p).state = .terminated ∧ k.current ≠ some p ∧ (k.procs p).pid ≠ 0) :
    ∃ m, reapLoop (fuel + 1) (some p) (some q) k =
        reapLoop fuel (k.procs p).next (some q) (unlinked k q p m) ∧
      Owned boot base extra (unlinked k q p m) (l₁ ++ q :: l₂) := by
  obtain ⟨free, hled⟩ := h.ledger
  by_cases hspace : (k.procs p).addrspace = 0
  · refine ⟨k.memory, ?_, h.unlink ⟨free, ?_⟩ hreap.2.2⟩
    · simp [reapLoop, hreap, hspace, setProc, unlinked]
    · have hnot : (k.procs p).addrspace ∉ slotSpaces k.procs (l₁ ++ q :: p :: l₂) ∪ extra := by
        intro hcon
        rcases Finset.mem_union.mp hcon with hcon | hcon
        · exact (mem_slotSpaces.mp hcon).1 hspace
        · exact h.apart p (by simp) hcon
      rw [Finset.erase_eq_of_notMem hnot]
      exact hled
  · have hmem : (k.procs p).addrspace ∈ (accountOf boot base extra k
        (l₁ ++ q :: p :: l₂)).spaces :=
      Finset.mem_union_left _ (mem_slotSpaces.mpr ⟨hspace, p, by simp, rfl⟩)
    obtain ⟨hrun, hled', _, _⟩ := hled.pagingAddrspaceDestroy_run hmem
    refine ⟨_, ?_, h.unlink ⟨_, hled'⟩ hreap.2.2⟩
    have hdestroy : onMemory (pagingAddrspaceDestroy (k.procs p).addrspace) { k with
        procs := Function.update k.procs q { k.procs q with next := (k.procs p).next } } = _ :=
      onMemory_ok hrun
    simp [reapLoop, hreap, hspace, setProc, unlinked, Eff.bind_ok hdestroy]

/-- The reaping loop ends and keeps the invariant. -/
theorem Owned.reapLoop_post (fuel : Nat) {l₁ l₂ : List Nat} {q : Nat}
    (h : Owned boot base extra k (l₁ ++ q :: l₂)) (hfuel : l₂.length ≤ fuel) :
    Eff.Post (reapLoop fuel l₂.head? (some q)) k (fun r k' => r = .ok () ∧
      k'.current = k.current ∧ ∃ l', Owned boot base extra k' l') := by
  induction l₂ generalizing fuel l₁ q k with
  | nil =>
      cases fuel <;> exact Eff.post_of_eq rfl ⟨rfl, rfl, _, h⟩
  | cons p l₂ ih =>
      cases fuel with
      | zero => simp at hfuel
      | succ fuel =>
          have hlen : l₂.length ≤ fuel := by simpa using hfuel
          have hnext : (k.procs p).next = l₂.head? := by
            have hp : Linked (nextOf k.procs) (some p) (p :: l₂) := by
              have := h.chain.tail_of_append
              rwa [this.head_eq] at this
            exact hp.2.head_eq
          by_cases hreap : (k.procs p).state = .terminated ∧ k.current ≠ some p ∧
              (k.procs p).pid ≠ 0
          · obtain ⟨m, hrun, howned⟩ := h.reapLoop_remove fuel hreap
            have hpost := ih fuel howned hlen
            rw [List.head?_cons]
            unfold Eff.Post at hpost ⊢
            rw [hrun, hnext]
            exact hpost
          · have hrun : reapLoop (fuel + 1) (some p) (some q) k =
                reapLoop fuel (k.procs p).next (some p) k := by
              simp [reapLoop, hreap]
            have hassoc : l₁ ++ q :: p :: l₂ = (l₁ ++ [q]) ++ p :: l₂ := by simp
            rw [hassoc] at h
            have hpost := ih fuel h hlen
            rw [List.head?_cons]
            unfold Eff.Post at hpost ⊢
            rw [hrun, hnext]
            exact hpost

/-- Reaping succeeds and keeps the invariant. -/
theorem Owned.processReap_post (h : Owned boot base extra k l) :
    Eff.Post processReap k (fun r k' => r = .ok () ∧ k'.current = k.current ∧
      ∃ l', Owned boot base extra k' l') := by
  obtain ⟨hhead, hpid⟩ := h.idle
  obtain ⟨rest, rfl⟩ := h.chained.eq_cons
  have hlen : rest.length ≤ 15 := by
    have := h.chained.length_le
    simp only [List.length_cons, processMax] at this
    omega
  have hnext : (k.procs 0).next = rest.head? := h.chain.2.head_eq
  have hskip : processReap k = reapLoop 15 (k.procs 0).next (some 0) k := by
    simp [processReap, hhead, processMax, reapLoop, hpid]
  have howned : Owned boot base extra k ([] ++ 0 :: rest) := h
  have hpost := howned.reapLoop_post 15 hlen
  unfold Eff.Post at hpost ⊢
  rw [hskip, hnext]
  exact hpost

/-! ## Creation -/

theorem findSlot_spec {procs : Nat → Proc} {is : List Nat} {slot : Nat}
    (h : findSlot procs is = some slot) : slot ∈ is ∧ (procs slot).inUse = false := by
  induction is with
  | nil => cases h
  | cons i is ih =>
      rw [findSlot] at h
      split at h
      next => exact ⟨List.mem_cons_of_mem i (ih h).1, (ih h).2⟩
      next hfree =>
        cases h
        exact ⟨List.mem_cons_self .., by simpa using hfree⟩

theorem findSlot_none {procs : Nat → Proc} {is : List Nat} (h : findSlot procs is = none) :
    ∀ i ∈ is, (procs i).inUse = true := by
  induction is with
  | nil => exact nofun
  | cons i is ih =>
      rw [findSlot] at h
      split at h
      next huse =>
        intro j hj
        rcases List.mem_cons.mp hj with rfl | hj
        · exact huse
        · exact ih h j hj
      next => cases h

/-- Following the chain ends at its last slot. -/
theorem findTail_run {fuel t q : Nat} {l₁ : List Nat}
    (h : Linked (nextOf k.procs) (some t) (l₁ ++ [q])) (hfuel : l₁.length < fuel) :
    findTail fuel t k = (.ok q, k) := by
  induction fuel generalizing t l₁ with
  | zero => omega
  | succ fuel ih =>
      cases l₁ with
      | nil =>
          obtain ⟨ht, hend⟩ := h
          cases ht
          have hnone : (k.procs q).next = none := hend
          simp [findTail, hnone]
      | cons x l₁ =>
          obtain ⟨ht, hrest⟩ := h
          cases ht
          have hhead : ∃ y, (k.procs t).next = some y := by
            have := hrest.head_eq
            cases l₁ with
            | nil => exact ⟨q, this⟩
            | cons y l₁ => exact ⟨y, this⟩
          obtain ⟨y, hy⟩ := hhead
          have hrun := @ih y l₁ (by rw [← hy]; exact hrest) (by simpa using hfuel)
          simp [findTail, hy, hrun]

/-- The state after a slot has been filled and appended to the chain. -/
def appended (k : Kernel) (q slot : Nat) (img : Proc) : Kernel :=
  let procs := Function.update k.procs slot img
  { k with
    nextPid := (k.nextPid + 1) % 2 ^ 32
    procs := Function.update procs q { procs q with next := some slot } }

theorem appended_self {q slot : Nat} {img : Proc} (hqs : q ≠ slot) :
    (appended k q slot img).procs slot = img := by
  simp [appended, Ne.symm hqs]

theorem appended_of_ne {q slot i : Nat} {r : Proc} (hi : i ≠ slot) :
    ∃ n, (appended k q slot r).procs i = { k.procs i with next := n } := by
  by_cases hiq : i = q
  · subst hiq
    refine ⟨some slot, ?_⟩
    simp [appended, hi]
  · refine ⟨(k.procs i).next, ?_⟩
    simp [appended, hi, hiq]

/-- Appending a process to the chain. -/
theorem Chained.append {l₁ : List Nat} {q slot : Nat} {img : Proc}
    (h : Chained k (l₁ ++ [q])) (hslot : slot < processMax) (hzero : slot ≠ 0)
    (hfree : (k.procs slot).inUse = false) (huse : img.inUse = true) (hnext : img.next = none) :
    Chained (appended k q slot img) (l₁ ++ [q, slot]) := by
  have hslotl : slot ∉ l₁ ++ [q] := by
    intro hcon
    rw [h.members, hfree] at hcon
    exact absurd hcon.2 (by simp)
  have hqs : q ≠ slot := by
    rintro rfl
    exact hslotl (by simp)
  have hlist : l₁ ++ [q, slot] = l₁ ++ [q] ++ [slot] := by simp
  refine ⟨?_, ?_, ?_⟩
  · have hlink : Linked (nextOf (Function.update k.procs slot img)) k.processList
        (l₁ ++ [q]) := by
      refine h.chain.congr (fun i hi => ?_)
      have hi' : i ≠ slot := fun heq => hslotl (heq ▸ hi)
      simp [nextOf, hi']
    have hsnoc := hlink.snoc (q := q) (x := slot) (by simpa [nextOf] using hnext) (Ne.symm hqs)
    rw [← nextOf_update] at hsnoc
    exact hsnoc
  · intro i
    rw [hlist, List.mem_append, List.mem_singleton]
    by_cases hi : i = slot
    · subst hi
      rw [appended_self hqs, huse]
      simp [hslot]
    · obtain ⟨n, hn⟩ := appended_of_ne (k := k) (q := q) (r := img) hi
      rw [hn, h.members]
      simp [hi]
  · obtain ⟨n, hn⟩ := appended_of_ne (k := k) (q := q) (r := img) (Ne.symm hzero)
    refine ⟨h.idle.1, ?_⟩
    rw [hn]
    exact h.idle.2

/-- Appending a process to the chain puts its address space into the table. -/
theorem Owned.append {l₁ : List Nat} {q slot : Nat} {img : Proc}
    (h : Owned boot base extra k (l₁ ++ [q])) (hslot : slot < processMax) (hzero : slot ≠ 0)
    (hfree : (k.procs slot).inUse = false) (huse : img.inUse = true) (hnext : img.next = none)
    (hspace : img.addrspace = 0 ∨ img.addrspace ∈ extra) :
    Owned boot base (extra.erase img.addrspace) (appended k q slot img) (l₁ ++ [q, slot]) := by
  have hchained := h.chained.append hslot hzero hfree huse hnext
  have hslotl : slot ∉ l₁ ++ [q] := by
    intro hcon
    rw [h.members, hfree] at hcon
    exact absurd hcon.2 (by simp)
  have hqs : q ≠ slot := by
    rintro rfl
    exact hslotl (by simp)
  have hlist : l₁ ++ [q, slot] = l₁ ++ [q] ++ [slot] := by simp
  have hmem : ∀ i, i ∈ l₁ ++ [q, slot] ↔ i ∈ l₁ ++ [q] ∨ i = slot := by
    intro i
    rw [hlist, List.mem_append, List.mem_singleton]
  have hother : ∀ i, i ≠ slot →
      ((appended k q slot img).procs i).addrspace = (k.procs i).addrspace := by
    intro i hi
    obtain ⟨n, hn⟩ := appended_of_ne (k := k) (q := q) (r := img) hi
    rw [hn]
  have hself : (appended k q slot img).procs slot = img := appended_self hqs
  have hold : ∀ i ∈ l₁ ++ [q], i ≠ slot := fun i hi heq => hslotl (heq ▸ hi)
  obtain ⟨free, hled⟩ := h.ledger
  have hzeroextra : (0 : Nat) ∉ extra := by
    intro hcon
    have hsp : (0 : Nat) ∈ (accountOf boot base extra k (l₁ ++ [q])).spaces :=
      Finset.mem_union_right _ hcon
    exact (hled.frame 0 (hled.space_owned hsp).1).ne_zero rfl
  refine ⟨hchained.chain, hchained.members, hchained.idle, ?_, ?_, ?_⟩
  · intro i hi j hj hne heq
    rcases (hmem i).mp hi with hi' | hi'
    · have hspi := hother i (hold i hi')
      rcases (hmem j).mp hj with hj' | hj'
      · rw [hspi, hother j (hold j hj')] at heq
        exact h.inj i hi' j hj' (hspi ▸ hne) heq
      · rw [hspi, hj', hself] at heq
        rcases hspace with hsp | hsp
        · exact absurd (hspi.trans (heq.trans hsp)) hne
        · exact absurd (heq ▸ hsp) (h.apart i hi')
    · rw [hi', hself] at heq hne
      rcases (hmem j).mp hj with hj' | hj'
      · rw [hother j (hold j hj')] at heq
        rcases hspace with hsp | hsp
        · exact absurd hsp hne
        · exact absurd (heq ▸ hsp) (h.apart j hj')
      · exact hi'.trans hj'.symm
  · intro i hi
    rcases (hmem i).mp hi with hi | rfl
    · rw [hother i (hold i hi)]
      exact fun hcon => h.apart i hi (Finset.mem_of_mem_erase hcon)
    · rw [hself]
      exact Finset.notMem_erase _ _
  · refine ⟨free, ?_⟩
    have hspaces : slotSpaces (appended k q slot img).procs (l₁ ++ [q, slot]) ∪
        extra.erase img.addrspace = slotSpaces k.procs (l₁ ++ [q]) ∪ extra := by
      ext s
      simp only [Finset.mem_union, Finset.mem_erase, mem_slotSpaces]
      constructor
      · rintro (⟨hs, i, hi, his⟩ | ⟨_, hs⟩)
        · rcases (hmem i).mp hi with hi | rfl
          · rw [hother i (hold i hi)] at his
            exact Or.inl ⟨hs, i, hi, his⟩
          · rw [hself] at his
            rcases hspace with hsp | hsp
            · exact absurd (his.symm.trans hsp) hs
            · exact Or.inr (his ▸ hsp)
        · exact Or.inr hs
      · rintro (⟨hs, i, hi, his⟩ | hs)
        · refine Or.inl ⟨hs, i, (hmem i).mpr (Or.inl hi), ?_⟩
          rw [hother i (hold i hi)]
          exact his
        · by_cases heq : s = img.addrspace
          · refine Or.inl ⟨fun h0 => hzeroextra (h0 ▸ hs), slot, (hmem slot).mpr (Or.inr rfl), ?_⟩
            rw [hself, heq]
          · exact Or.inr ⟨heq, hs⟩
    rw [accountOf, hspaces]
    exact hled

/-- The image of a process as it is put into a slot. -/
def startImage (img : Proc) (pid : Nat) : Proc :=
  { img with pid := pid, state := .ready, inUse := true, next := none }

/-- A creation fails for want of a slot after reaping, or appends the image to the chain. -/
theorem Chained.createProc_run {k₁ : Kernel} {l₁ : List Nat} (hhead : k.processList = some 0)
    (hreap : processReap k = (.ok (), k₁)) (h : Chained k₁ l₁) (img : Proc) :
    (findSlot k₁.procs (List.range' 1 (processMax - 1)) = none ∧
      createProc img k = (.error (.status .NprocessFailed), k₁)) ∨
    ∃ l₂ q slot, l₁ = l₂ ++ [q] ∧ slot < processMax ∧ slot ≠ 0 ∧
      (k₁.procs slot).inUse = false ∧
      createProc img k = (.ok k₁.nextPid, appended k₁ q slot (startImage img k₁.nextPid)) := by
  unfold createProc
  rw [Eff.gets_bind_run, if_neg (by rw [hhead]; simp), Eff.bind_ok hreap, Eff.gets_bind_run]
  dsimp only [id]
  cases hfind : findSlot k₁.procs (List.range' 1 (processMax - 1)) with
  | none => exact Or.inl ⟨rfl, rfl⟩
  | some slot =>
      right
      obtain ⟨hrange, hfree⟩ := findSlot_spec hfind
      rw [List.mem_range'_1] at hrange
      have hslot : slot < processMax := by
        simp only [processMax] at hrange ⊢
        omega
      obtain ⟨rest, hrest⟩ := h.eq_cons
      obtain ⟨l₂, q, rfl⟩ : ∃ l₂ q, l₁ = l₂ ++ [q] := by
        rcases List.eq_nil_or_concat l₁ with rfl | ⟨l₂, q, rfl⟩
        · cases hrest
        · exact ⟨l₂, q, List.concat_eq_append⟩
      refine ⟨l₂, q, slot, rfl, hslot, by omega, hfree, ?_⟩
      have hslotl : slot ∉ l₂ ++ [q] := by
        intro hcon
        rw [h.members, hfree] at hcon
        exact absurd hcon.2 (by simp)
      have hchain : Linked (nextOf (Function.update k₁.procs slot (startImage img k₁.nextPid)))
          (some 0) (l₂ ++ [q]) := by
        rw [← h.idle.1]
        refine h.chain.congr (fun i hi => ?_)
        have hi' : i ≠ slot := fun heq => hslotl (heq ▸ hi)
        simp [nextOf, hi']
      have hlen : l₂.length < processMax := by
        have := h.length_le
        simp only [List.length_append, List.length_singleton] at this
        omega
      have htail := findTail_run (k := { k₁ with
        nextPid := (k₁.nextPid + 1) % 2 ^ 32
        procs := Function.update k₁.procs slot (startImage img k₁.nextPid) }) hchain hlen
      dsimp only
      rw [Eff.modify_bind_run, setProc, Eff.modify_bind_run, h.idle.1]
      rw [h.idle.1] at htail
      refine (Eff.bind_ok htail).trans ?_
      unfold appended
      rw [h.idle.1]
      rfl

/-- Creating a process puts its address space into the table, or fails with a
status and leaves the address space to the caller. -/
theorem Owned.createProc_post (h : Owned boot base extra k l) {img : Proc}
    (hspace : img.addrspace = 0 ∨ img.addrspace ∈ extra) :
    Eff.Post (createProc img) k (fun r k' =>
      (∃ pid l', r = .ok pid ∧ Owned boot base (extra.erase img.addrspace) k' l') ∨
      (∃ e l', r = .error (.status e) ∧ Owned boot base extra k' l')) := by
  have hpost := h.processReap_post
  unfold Eff.Post at hpost
  cases hreap : processReap k with
  | mk r k₁ =>
      rw [hreap] at hpost
      obtain ⟨rfl, -, l₁, h₁⟩ := hpost
      rcases h₁.chained.createProc_run h.idle.1 hreap img with
        ⟨-, hrun⟩ | ⟨l₂, q, slot, rfl, hslot, hzero, hfree, hrun⟩
      · exact Eff.post_of_eq hrun (Or.inr ⟨_, l₁, rfl, h₁⟩)
      · have happend : Owned boot base (extra.erase (startImage img k₁.nextPid).addrspace)
            (appended k₁ q slot (startImage img k₁.nextPid)) (l₂ ++ [q, slot]) :=
          h₁.append hslot hzero hfree rfl rfl hspace
        exact Eff.post_of_eq hrun (Or.inl ⟨_, _, rfl, happend⟩)

end Process
end Nyxis
