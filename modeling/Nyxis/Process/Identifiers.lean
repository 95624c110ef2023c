import Nyxis.Process.Scheduler

/-!
# Process identifiers

Identifiers come from a counter of 32 bits that is never compared with the identifiers in use.
A creation reaps first, so that the identifiers that matter are those of the processes that
reaping leaves.

Main results:

- Theorem {lit}`Orderly.processReap_exact`: which processes reaping takes away.
- Theorem {lit}`pids_unique_iff`: in which runs identifiers stay unique, so that every call by
  an identifier reaches the process that has it.
- Theorem {lit}`pid_zero_twice`: a run that gives a second process the identifier zero.
-/

namespace Nyxis
namespace Process

open Mm

variable {k k' : Kernel} {l : List Nat} {c : Nat}

/-! ## Exit codes -/

/-- The loop of {lit}`process_get_exit_code`. -/
def exitCodeLoop (pid : Nat) : (fuel : Nat) → (p : Option Nat) → KernelM Int
  | _, none => failWith .NnotFound
  | 0, some _ => Eff.fail .hang
  | fuel + 1, some p => do
      let proc ← Eff.gets (fun k => k.procs p)
      if proc.inUse = false ∨ proc.pid ≠ pid then
        exitCodeLoop pid fuel proc.next
      else if proc.state ≠ .terminated then
        failWith .Nbusy
      else
        pure proc.exitCode

/-- {lit}`process_get_exit_code`. -/
def processGetExitCode (pid : Nat) : KernelM Int := do
  let head ← Eff.gets Kernel.processList
  exitCodeLoop pid processMax head

/-! ## The searches -/

/-- The first process of a list with an identifier. -/
def firstWith (k : Kernel) (pid : Nat) (l : List Nat) : Option Nat :=
  l.find? (fun i => (k.procs i).inUse && (k.procs i).pid == pid)

/-- {lit}`findPid` finds the first process of the chain with the identifier. -/
theorem findPid_eq {fuel pid : Nat} {p : Option Nat} (h : Linked (nextOf k.procs) p l)
    (hfuel : l.length ≤ fuel) : findPid pid fuel p k = (.ok (firstWith k pid l), k) := by
  induction l generalizing fuel p with
  | nil =>
      rw [Linked.nil_iff] at h
      rw [h]
      cases fuel with
      | zero => rfl
      | succ fuel => rfl
  | cons x l ih =>
      obtain ⟨rfl, hrest⟩ := h
      cases fuel with
      | zero => cases hfuel
      | succ fuel =>
          unfold firstWith findPid
          rw [Eff.gets_bind_run, List.find?_cons]
          by_cases hfound : (k.procs x).inUse = true ∧ (k.procs x).pid = pid
          · rw [if_pos hfound, hfound.1, hfound.2, beq_self_eq_true]
            rfl
          · rw [if_neg hfound]
            have hmiss : ((k.procs x).inUse && (k.procs x).pid == pid) = false := by
              simpa using hfound
            rw [hmiss]
            exact ih hrest (Nat.le_of_succ_le_succ hfuel)

/-- The search for an exit code looks at the first process of the chain with the identifier. -/
theorem exitCodeLoop_eq {fuel pid : Nat} {p : Option Nat} (h : Linked (nextOf k.procs) p l)
    (hfuel : l.length ≤ fuel) : exitCodeLoop pid fuel p k =
      match firstWith k pid l with
      | none => (.error (.status .NnotFound), k)
      | some i => (if (k.procs i).state = .terminated then .ok (k.procs i).exitCode
          else .error (.status .Nbusy), k) := by
  induction l generalizing fuel p with
  | nil =>
      rw [Linked.nil_iff] at h
      rw [h]
      cases fuel with
      | zero => rfl
      | succ fuel => rfl
  | cons x l ih =>
      obtain ⟨rfl, hrest⟩ := h
      cases fuel with
      | zero => cases hfuel
      | succ fuel =>
          unfold firstWith exitCodeLoop
          rw [Eff.gets_bind_run, List.find?_cons]
          by_cases hmiss : (k.procs x).inUse = false ∨ (k.procs x).pid ≠ pid
          · rw [if_pos hmiss]
            have hskip : ((k.procs x).inUse && (k.procs x).pid == pid) = false := by
              rcases hmiss with huse | hpid
              · rw [huse, Bool.false_and]
              · rw [beq_eq_false_iff_ne.mpr hpid, Bool.and_false]
            rw [hskip]
            exact ih hrest (Nat.le_of_succ_le_succ hfuel)
          · rw [if_neg hmiss]
            rw [not_or, Bool.not_eq_false, not_not] at hmiss
            rw [hmiss.1, hmiss.2, beq_self_eq_true]
            by_cases hstate : (k.procs x).state = .terminated
            · rw [if_neg (not_not.mpr hstate)]
              change _ = (ite _ _ _, k)
              rw [if_pos hstate]
              rfl
            · rw [if_pos hstate]
              change _ = (ite _ _ _, k)
              rw [if_neg hstate]
              rfl

/-! ## Reaping -/

/-- What reaping takes away: a process that has ended, is not current and has an identifier. -/
def Reapable (k : Kernel) (i : Nat) : Prop :=
  (k.procs i).inUse = true ∧ (k.procs i).state = .terminated ∧ k.current ≠ some i ∧
    (k.procs i).pid ≠ 0

instance (k : Kernel) (i : Nat) : Decidable (Reapable k i) :=
  inferInstanceAs (Decidable (_ ∧ _))

/-- A process is what it was, except for its place in the chain. -/
def SameBut (k k' : Kernel) (i : Nat) : Prop :=
  ∃ n, k'.procs i = { k.procs i with next := n }

theorem SameBut.refl (k : Kernel) (i : Nat) : SameBut k k i :=
  ⟨(k.procs i).next, rfl⟩

theorem SameBut.trans {k'' : Kernel} {i : Nat} (h : SameBut k k' i) (h' : SameBut k' k'' i) :
    SameBut k k'' i := by
  obtain ⟨n, hn⟩ := h
  obtain ⟨n', hn'⟩ := h'
  exact ⟨n', by rw [hn', hn]⟩

theorem SameBut.pid {i : Nat} (h : SameBut k k' i) : (k'.procs i).pid = (k.procs i).pid := by
  obtain ⟨n, hn⟩ := h
  rw [hn]

theorem SameBut.inUse {i : Nat} (h : SameBut k k' i) :
    (k'.procs i).inUse = (k.procs i).inUse := by
  obtain ⟨n, hn⟩ := h
  rw [hn]

theorem SameBut.state {i : Nat} (h : SameBut k k' i) :
    (k'.procs i).state = (k.procs i).state := by
  obtain ⟨n, hn⟩ := h
  rw [hn]

theorem SameBut.reapable_iff {i : Nat} (h : SameBut k k' i) (hcurrent : k'.current = k.current) :
    Reapable k' i ↔ Reapable k i := by
  unfold Reapable
  rw [h.inUse, h.state, h.pid, hcurrent]

/-- Reaping has taken away the processes of a list that it can, and nothing else. -/
structure Reaped (k k' : Kernel) (l : List Nat) : Prop where
  current : k'.current = k.current
  nextPid : k'.nextPid = k.nextPid
  gone : ∀ i ∈ l, Reapable k i → (k'.procs i).inUse = false
  kept : ∀ i, i ∉ l ∨ ¬ Reapable k i → SameBut k k' i

theorem Reaped.nil (k : Kernel) : Reaped k k [] :=
  ⟨rfl, rfl, nofun, fun i _ => SameBut.refl k i⟩

/-- The loop passes over a process that it keeps. -/
theorem Reaped.skip {p : Nat} (h : Reaped k k' l) (hkeep : ¬ Reapable k p) :
    Reaped k k' (p :: l) where
  current := h.current
  nextPid := h.nextPid
  gone i hi hreap := by
    rcases List.mem_cons.mp hi with rfl | hi
    · exact absurd hreap hkeep
    · exact h.gone i hi hreap
  kept i hi := by
    refine h.kept i ?_
    rcases hi with hi | hi
    · exact Or.inl (fun hcon => hi (List.mem_cons_of_mem _ hcon))
    · exact Or.inr hi

/-- The loop takes a process away. -/
theorem Reaped.remove {p q : Nat} {m : Memory} (h : Reaped (unlinked k q p m) k' l)
    (hp : p ∉ l) (hreap : Reapable k p) : Reaped k k' (p :: l) where
  current := h.current
  nextPid := h.nextPid
  gone i hi hgone := by
    by_cases hip : i = p
    · have hkept := h.kept i (Or.inl (hip ▸ hp))
      rw [hkept.inUse, hip]
      unfold unlinked
      dsimp only
      rw [Function.update_self]
      rfl
    · rcases List.mem_cons.mp hi with hcon | hi
      · exact absurd hcon hip
      · have hsame : SameBut k (unlinked k q p m) i := unlinked_of_ne hip
        exact h.gone i hi ((hsame.reapable_iff rfl).mpr hgone)
  kept i hi := by
    by_cases hip : i = p
    · rw [hip] at hi
      rcases hi with hi | hi
      · exact absurd (List.mem_cons_self ..) hi
      · exact absurd hreap hi
    · have hsame : SameBut k (unlinked k q p m) i := unlinked_of_ne hip
      refine hsame.trans (h.kept i ?_)
      rw [hsame.reapable_iff rfl]
      rcases hi with hi | hi
      · exact Or.inl (fun hcon => hi (List.mem_cons_of_mem _ hcon))
      · exact Or.inr hi

/-- The reaping loop takes away the processes behind a place of the chain that it can. -/
theorem Chained.reapLoop_exact (fuel : Nat) {l₁ l₂ : List Nat} {q : Nat}
    (h : Chained k (l₁ ++ q :: l₂)) (hfuel : l₂.length ≤ fuel) :
    ∃ k', reapLoop fuel l₂.head? (some q) k = (.ok (), k') ∧ Reaped k k' l₂ := by
  induction l₂ generalizing fuel l₁ q k with
  | nil =>
      refine ⟨k, ?_, Reaped.nil k⟩
      cases fuel with
      | zero => rfl
      | succ fuel => rfl
  | cons p l₂ ih =>
      cases fuel with
      | zero => cases hfuel
      | succ fuel =>
          have hlen : l₂.length ≤ fuel := Nat.le_of_succ_le_succ hfuel
          have hnext : (k.procs p).next = l₂.head? := by
            have hp : Linked (nextOf k.procs) (some p) (p :: l₂) := by
              have := h.chain.tail_of_append
              rwa [this.head_eq] at this
            exact hp.2.head_eq
          have hpl : p ∉ l₂ := by
            have hnodup := (List.nodup_append.mp h.chain.nodup).2.1
            exact (List.nodup_cons.mp (List.nodup_cons.mp hnodup).2).1
          have huse : (k.procs p).inUse = true := ((h.members p).mp (by simp)).2
          rw [List.head?_cons]
          by_cases hreap : (k.procs p).state = .terminated ∧ k.current ≠ some p ∧
              (k.procs p).pid ≠ 0
          · obtain ⟨m, hrun⟩ := reapLoop_remove fuel q p k hreap
            obtain ⟨k', hloop, hreaped⟩ := ih fuel (h.unlink m hreap.2.2) hlen
            refine ⟨k', ?_, hreaped.remove hpl ⟨huse, hreap⟩⟩
            rw [hrun, hnext]
            exact hloop
          · have hrun : reapLoop (fuel + 1) (some p) (some q) k =
                reapLoop fuel (k.procs p).next (some p) k := by
              simp [reapLoop, hreap]
            have hassoc : l₁ ++ q :: p :: l₂ = (l₁ ++ [q]) ++ p :: l₂ := by simp
            rw [hassoc] at h
            obtain ⟨k', hloop, hreaped⟩ := ih fuel h hlen
            refine ⟨k', ?_, hreaped.skip (fun hcon => hreap hcon.2)⟩
            rw [hrun, hnext]
            exact hloop

/-- Reaping takes away the processes of the chain that it can, and nothing else. -/
theorem Orderly.processReap_exact (h : Orderly k l c) :
    ∃ k' l', processReap k = (.ok (), k') ∧ Orderly k' l' c ∧ Reaped k k' l := by
  obtain ⟨hhead, hpid⟩ := h.idle
  obtain ⟨rest, rfl⟩ := h.toChained.eq_cons
  have hlen : rest.length ≤ 15 := by
    have := h.toChained.length_le
    simp only [List.length_cons, processMax] at this
    omega
  have hnext : (k.procs 0).next = rest.head? := h.chain.2.head_eq
  have hskip : processReap k = reapLoop 15 (k.procs 0).next (some 0) k := by
    simp [processReap, hhead, processMax, reapLoop, hpid]
  have hchained : Chained k ([] ++ 0 :: rest) := h.toChained
  obtain ⟨k', hloop, hreaped⟩ := hchained.reapLoop_exact 15 hlen
  obtain ⟨k₂, l', hrun, horderly⟩ := h.processReap_run
  rw [hskip, hnext, hloop] at hrun
  cases hrun
  refine ⟨k', l', ?_, horderly, hreaped.skip (fun hcon => hcon.2.2.2 hpid)⟩
  rw [hskip, hnext, hloop]

/-! ## Unique identifiers -/

/-- No two processes in use have one identifier, and only the idle process has zero. -/
structure PidsOk (k : Kernel) : Prop where
  unique : ∀ i < processMax, ∀ j < processMax, (k.procs i).inUse = true →
    (k.procs j).inUse = true → (k.procs i).pid = (k.procs j).pid → i = j
  idle : ∀ i < processMax, (k.procs i).inUse = true → ((k.procs i).pid = 0 ↔ i = 0)

/-- Processes may have gone, none has come, and identifiers stay. -/
def Fewer (k k' : Kernel) : Prop :=
  ∀ i, (k'.procs i).inUse = true → (k.procs i).inUse = true ∧ (k'.procs i).pid = (k.procs i).pid

theorem Fewer.refl (k : Kernel) : Fewer k k :=
  fun _ h => ⟨h, rfl⟩

theorem Fewer.trans (a b d : Kernel) (hab : Fewer a b) (hbd : Fewer b d) : Fewer a d := by
  intro i hi
  obtain ⟨hb, hpid⟩ := hbd i hi
  obtain ⟨ha, hpid'⟩ := hab i hb
  exact ⟨ha, hpid.trans hpid'⟩

theorem PidsOk.fewer (h : PidsOk k) (hfewer : Fewer k k') : PidsOk k' := by
  refine ⟨fun i hi j hj hiuse hjuse heq => ?_, fun i hi hiuse => ?_⟩
  · obtain ⟨hiuse', hipid⟩ := hfewer i hiuse
    obtain ⟨hjuse', hjpid⟩ := hfewer j hjuse
    exact h.unique i hi j hj hiuse' hjuse' (by rw [← hipid, ← hjpid, heq])
  · obtain ⟨hiuse', hipid⟩ := hfewer i hiuse
    rw [hipid]
    exact h.idle i hi hiuse'

/-- A call that makes no process. -/
abbrev MakesNone {α : Type} (m : KernelM α) : Prop :=
  Eff.Moves Fewer m

theorem fewer_setProc (i : Nat) {f : Proc → Proc}
    (hf : ∀ r, (f r).inUse = true → r.inUse = true ∧ (f r).pid = r.pid) :
    MakesNone (setProc i f) := by
  intro k j hj
  change (Function.update k.procs i (f (k.procs i)) j).inUse = true at hj
  change _ ∧ (Function.update k.procs i (f (k.procs i)) j).pid = _
  by_cases hji : j = i
  · subst hji
    rw [Function.update_self] at hj ⊢
    exact hf _ hj
  · rw [Function.update_of_ne hji] at hj ⊢
    exact ⟨hj, rfl⟩

theorem fewer_modify {f : Kernel → Kernel} (hf : ∀ k, (f k).procs = k.procs) :
    MakesNone (Eff.modify f) := by
  intro k i hi
  change ((f k).procs i).inUse = true at hi
  change _ ∧ ((f k).procs i).pid = _
  rw [hf k] at hi ⊢
  exact ⟨hi, rfl⟩

theorem fewer_reads {α : Type} {m : KernelM α} (h : Eff.Reads m) : MakesNone m :=
  h.moves Fewer.refl

theorem fewer_gets {α : Type} (g : Kernel → α) : MakesNone (Eff.gets g) :=
  fewer_reads (Eff.reads_gets g)

theorem fewer_fail {α : Type} (e : Stop) : MakesNone (Eff.fail e : KernelM α) :=
  fewer_reads (Eff.reads_fail e)

theorem fewer_pure {α : Type} (x : α) : MakesNone (pure x : KernelM α) :=
  fewer_reads (Eff.reads_pure x)

theorem MakesNone.bind {α β : Type} {m : KernelM α} {f : α → KernelM β} (hm : MakesNone m)
    (hf : ∀ x, MakesNone (f x)) : MakesNone (m >>= f) :=
  Eff.Moves.bind hm Fewer.trans hf

theorem fewer_onMemory {α : Type} (m : MemM α) : MakesNone (onMemory m) := by
  intro k i hi
  unfold onMemory at hi ⊢
  split at hi
  next => exact ⟨hi, rfl⟩
  next => exact ⟨hi, rfl⟩

theorem fewer_reapLoop (fuel : Nat) (p prev : Option Nat) : MakesNone (reapLoop fuel p prev) := by
  induction fuel generalizing p prev with
  | zero =>
      cases p with
      | none => exact fun k => Fewer.refl k
      | some p => exact fun k => Fewer.refl k
  | succ fuel ih =>
      cases p with
      | none => exact fun k => Fewer.refl k
      | some p =>
          refine (fewer_gets _).bind fun proc => (fewer_gets _).bind fun cur => ?_
          refine Eff.moves_ite ?_ (ih _ _)
          have hrest : MakesNone (do
              if proc.addrspace ≠ 0 then
                onMemory (pagingAddrspaceDestroy proc.addrspace)
              setProc p (fun _ => Proc.zero)
              reapLoop fuel proc.next prev) := by
            have hclear : MakesNone (do
                setProc p (fun _ => Proc.zero)
                reapLoop fuel proc.next prev) :=
              (fewer_setProc p (f := fun _ => Proc.zero) (fun _ huse => Bool.noConfusion huse)).bind
                fun _ => ih _ _
            exact Eff.moves_ite ((fewer_onMemory _).bind fun _ => hclear) hclear
          cases prev with
          | some q =>
              exact (fewer_setProc q (f := fun r => { r with next := proc.next })
                fun _ huse => ⟨huse, rfl⟩).bind fun _ => hrest
          | none =>
              exact (fewer_modify (f := fun k => { k with processList := proc.next })
                fun _ => rfl).bind fun _ => hrest

theorem fewer_processReap : MakesNone processReap :=
  (fewer_gets _).bind fun _ => fewer_reapLoop _ _ _

theorem fewer_of_shaped {α : Type} {m : KernelM α} (h : Shaped m) : MakesNone m := by
  intro k i hi
  have hshape : SameShape k (m k).2 := h k
  rw [hshape.inUse i] at hi
  exact ⟨hi, hshape.pid i⟩

theorem fewer_processTerminate (pid : Nat) : MakesNone (processTerminate pid) := by
  refine Eff.moves_ite (fewer_fail _) ((fewer_gets _).bind fun head => ?_)
  refine (fewer_of_shaped (shaped_findPid _ _ _)).bind fun found => ?_
  cases found with
  | none => exact fewer_fail _
  | some p =>
      refine (fewer_gets _).bind fun proc => Eff.moves_ite (fewer_fail _) ?_
      refine (fewer_setProc p (f := fun r => { r with state := .terminated })
        fun _ huse => ⟨huse, rfl⟩).bind fun _ => (fewer_gets _).bind fun cur => ?_
      refine Eff.moves_ite ((fewer_of_shaped shaped_schedule).bind fun _ => ?_) fewer_processReap
      exact (fewer_gets _).bind fun cur' => Eff.moves_ite (fewer_fail _) (fewer_pure _)

theorem fewer_processExitWithCode (code : Int) : MakesNone (processExitWithCode code) := by
  refine (fewer_gets _).bind fun k => ?_
  cases k.current with
  | none => exact fewer_fail _
  | some cur =>
      refine Eff.moves_ite (fewer_fail _) ?_
      refine (fewer_setProc cur (f := fun r => { r with exitCode := code })
        fun _ huse => ⟨huse, rfl⟩).bind fun _ => ?_
      refine (fewer_modify (f := fun k => { k with lastExitCode := code }) fun _ => rfl).bind
        fun _ => fewer_processTerminate _

/-! ## Creation -/

/-- A process that reaping leaves. -/
def Kept (k : Kernel) (i : Nat) : Prop :=
  (k.procs i).inUse = true ∧ ¬ Reapable k i

instance (k : Kernel) (i : Nat) : Decidable (Kept k i) :=
  inferInstanceAs (Decidable (_ ∧ _))

/-- The next identifier is not zero and not that of a process that reaping leaves. -/
def FreshPid (k : Kernel) : Prop :=
  k.nextPid ≠ 0 ∧ ∀ i < processMax, Kept k i → (k.procs i).pid ≠ k.nextPid

instance (k : Kernel) : Decidable (FreshPid k) :=
  inferInstanceAs (Decidable (_ ∧ _))

/-- Reaping leaves a slot for a new process. -/
def HasSlot (k : Kernel) : Prop :=
  ∃ i < processMax, i ≠ 0 ∧ ¬ Kept k i

instance (k : Kernel) : Decidable (HasSlot k) :=
  inferInstanceAs (Decidable (∃ _ < _, _))

/-- The slots in use after reaping are those of the processes that it leaves. -/
theorem Reaped.inUse_iff (h : Reaped k k' l) (hchain : Chained k l) {i : Nat}
    (hi : i < processMax) : (k'.procs i).inUse = true ↔ Kept k i := by
  unfold Kept
  by_cases hreap : Reapable k i
  · rw [h.gone i ((hchain.members i).mpr ⟨hi, hreap.1⟩) hreap]
    exact ⟨nofun, fun hkept => absurd hreap hkept.2⟩
  · rw [(h.kept i (Or.inr hreap)).inUse]
    exact ⟨fun huse => ⟨huse, hreap⟩, fun hkept => hkept.1⟩

/-- What the creation of a process does to the identifiers: it fails for want of a slot, or
puts the next identifier into a new slot beside the processes that reaping leaves. -/
theorem Orderly.createProc_exact (h : Orderly k l c) (img : Proc) :
    ∃ r k', createProc img k = (r, k') ∧ (∃ l' c', Orderly k' l' c') ∧
      ((∃ e, r = .error e) ∧ ¬ HasSlot k ∧ Fewer k k' ∨
        ∃ slot < processMax, slot ≠ 0 ∧ ¬ Kept k slot ∧ r = .ok k.nextPid ∧
          (k'.procs slot).inUse = true ∧ (k'.procs slot).pid = k.nextPid ∧
          ∀ i < processMax, i ≠ slot → ((k'.procs i).inUse = true ↔ Kept k i) ∧
            (Kept k i → (k'.procs i).pid = (k.procs i).pid)) := by
  obtain ⟨k₁, l₁, hreap, h₁, hreaped⟩ := h.processReap_exact
  rcases h₁.toChained.createProc_run h.idle.1 hreap img with
    ⟨hfull, hrun⟩ | ⟨l₂, q, slot, rfl, hslot, hzero, hfree, hrun⟩
  · refine ⟨_, k₁, hrun, ⟨_, _, h₁⟩, Or.inl ⟨⟨_, rfl⟩, ?_, ?_⟩⟩
    · rintro ⟨i, hi, hi0, hgone⟩
      refine hgone ((hreaped.inUse_iff h.toChained hi).mp (findSlot_none hfull i ?_))
      rw [List.mem_range'_1]
      unfold processMax at hi ⊢
      omega
    · have hfewer := fewer_processReap k
      rw [hreap] at hfewer
      exact hfewer
  · have hqs : q ≠ slot := by
      rintro rfl
      have hq := (h₁.members q).mp (by simp)
      rw [hfree] at hq
      cases hq.2
    refine ⟨_, _, hrun, ⟨_, _, h₁.append hslot hzero hfree rfl rfl rfl⟩,
      Or.inr ⟨slot, hslot, hzero, ?_, ?_, ?_, ?_, ?_⟩⟩
    · intro hkept
      rw [(hreaped.inUse_iff h.toChained hslot).mpr hkept] at hfree
      cases hfree
    · rw [hreaped.nextPid]
    · rw [appended_self hqs]
      rfl
    · rw [appended_self hqs, ← hreaped.nextPid]
      rfl
    · intro i hi his
      have hsame : SameBut k₁ (appended k₁ q slot (startImage img k₁.nextPid)) i :=
        appended_of_ne his
      rw [hsame.inUse, hsame.pid]
      refine ⟨hreaped.inUse_iff h.toChained hi, fun hkept => ?_⟩
      exact (hreaped.kept i (Or.inr hkept.2)).pid

/-- A creation keeps identifiers unique exactly when the next one is fresh or there is no slot
for it. -/
theorem Orderly.createProc_pidsOk_iff (h : Orderly k l c) (hok : PidsOk k) (img : Proc) :
    PidsOk (createProc img k).2 ↔ (HasSlot k → FreshPid k) := by
  obtain ⟨r, k', hrun, -, hcase⟩ := h.createProc_exact img
  rw [hrun]
  rcases hcase with ⟨-, hfull, hfewer⟩ |
    ⟨slot, hslot, hzero, hgone, -, huse, hpid, hothers⟩
  · exact ⟨fun _ hcon => absurd hcon hfull, fun _ => hok.fewer hfewer⟩
  · constructor
    · intro hok' _
      refine ⟨fun hnull => hzero ((hok'.idle slot hslot huse).mp (hpid.trans hnull)), ?_⟩
      intro i hi hkept heq
      have his : i ≠ slot := by
        rintro rfl
        exact hgone hkept
      obtain ⟨hiuse, hipid⟩ := hothers i hi his
      refine his (hok'.unique i hi slot hslot (hiuse.mpr hkept) huse ?_)
      rw [hipid hkept, heq, hpid]
    · intro hfresh
      obtain ⟨hnull, hnew⟩ := hfresh ⟨slot, hslot, hzero, hgone⟩
      -- a process other than the new one
      have hold : ∀ i < processMax, i ≠ slot → (k'.procs i).inUse = true →
          Kept k i ∧ (k'.procs i).pid = (k.procs i).pid := by
        intro i hi his hiuse
        obtain ⟨hkept, hipid⟩ := hothers i hi his
        exact ⟨hkept.mp hiuse, hipid (hkept.mp hiuse)⟩
      have hclash : ∀ i < processMax, i ≠ slot → (k'.procs i).inUse = true →
          (k'.procs i).pid ≠ (k'.procs slot).pid := by
        intro i hi his hiuse heq
        obtain ⟨hkept, hipid⟩ := hold i hi his hiuse
        exact hnew i hi hkept (by rw [← hipid, heq, hpid])
      refine ⟨fun i hi j hj hiuse hjuse heq => ?_, fun i hi hiuse => ?_⟩
      · by_cases his : i = slot
        · by_cases hjs : j = slot
          · rw [his, hjs]
          · rw [his] at heq
            exact absurd heq.symm (hclash j hj hjs hjuse)
        · by_cases hjs : j = slot
          · rw [hjs] at heq
            exact absurd heq (hclash i hi his hiuse)
          · obtain ⟨hikept, hipid⟩ := hold i hi his hiuse
            obtain ⟨hjkept, hjpid⟩ := hold j hj hjs hjuse
            exact hok.unique i hi j hj hikept.1 hjkept.1 (by rw [← hipid, ← hjpid, heq])
      · by_cases his : i = slot
        · rw [his, hpid]
          exact ⟨fun hcon => absurd hcon hnull, fun hcon => absurd hcon hzero⟩
        · obtain ⟨hkept, hipid⟩ := hold i hi his hiuse
          rw [hipid]
          exact hok.idle i hi hkept.1

/-! ## Ending a process -/

/-- No process has ended, and none has come back. -/
def SameEnded (k k' : Kernel) : Prop :=
  ∀ i, (k'.procs i).state = .terminated ↔ (k.procs i).state = .terminated

theorem SameEnded.refl (k : Kernel) : SameEnded k k :=
  fun _ => Iff.rfl

theorem SameEnded.trans (a b d : Kernel) (hab : SameEnded a b) (hbd : SameEnded b d) :
    SameEnded a d :=
  fun i => (hbd i).trans (hab i)

/-- One process changes, and has ended after the change if it had before. -/
theorem SameEnded.update {p : Nat} {r : Proc} (hprocs : k'.procs = Function.update k.procs p r)
    (hr : r.state = .terminated ↔ (k.procs p).state = .terminated) : SameEnded k k' := by
  intro i
  rw [hprocs]
  by_cases hi : i = p
  · rw [hi, Function.update_self]
    exact hr
  · rw [Function.update_of_ne hi]

theorem sameEnded_setProc (p : Nat) {f : Proc → Proc}
    (hf : ∀ r, (f r).state = .terminated ↔ r.state = .terminated) :
    Eff.Moves SameEnded (setProc p f) :=
  fun _ => SameEnded.update rfl (hf _)

theorem sameEnded_processSwitch (p : Nat) : Eff.Moves SameEnded (processSwitch p) := by
  intro k
  change Eff.Post (processSwitch p) k (fun _ k' => SameEnded k k')
  refine Eff.post_gets_bind (Eff.post_gets_bind ?_)
  split
  next => exact Eff.post_of_eq rfl (SameEnded.refl k)
  next hready =>
    rw [not_or, not_not] at hready
    split
    next => exact Eff.post_of_eq rfl (SameEnded.refl k)
    next hother =>
      -- the process that runs next is ready before and after the old one is put back
      have hrun : ∀ k₁ : Kernel, SameEnded k k₁ → (k₁.procs p).state = .ready →
          Eff.Post (do
            Eff.modify (fun k => { k with current := some p })
            setProc p (fun r => { r with state := .running })) k₁
            (fun _ k' => SameEnded k k') := by
        intro k₁ h₁ hstate
        refine Eff.post_bind_ok rfl (Eff.post_of_eq rfl ?_)
        refine SameEnded.trans _ _ _ h₁ (SameEnded.update (p := p)
          (r := { k₁.procs p with state := .running }) rfl ?_)
        rw [hstate]
        exact ⟨nofun, nofun⟩
      cases hcur : k.current with
      | none => exact hrun k (SameEnded.refl k) hready.2
      | some o =>
          have hop : p ≠ o := by
            rintro rfl
            exact hother hcur
          refine Eff.post_bind_ok rfl (hrun _ (sameEnded_setProc o
            (f := fun r => if r.state = .running then { r with state := .ready } else r) ?_ k) ?_)
          · intro r
            split
            next hrunning =>
              rw [hrunning]
              exact ⟨nofun, nofun⟩
            next => exact Iff.rfl
          · change (Function.update k.procs o _ p).state = _
            rw [Function.update_of_ne hop]
            exact hready.2

theorem sameEnded_pickLoop (current head fuel p : Nat) :
    Eff.Moves SameEnded (pickLoop current head fuel p) := by
  have hwake : ∀ tick r, (wake tick r).state = .terminated ↔ r.state = .terminated := by
    intro tick r
    rcases wake_state tick r with heq | ⟨hblocked, hready⟩
    · rw [heq]
    · rw [hblocked, hready]
      exact ⟨nofun, nofun⟩
  induction fuel generalizing p with
  | zero =>
      unfold pickLoop
      exact Eff.moves_ite (fun k => SameEnded.refl k) (fun k => SameEnded.refl k)
  | succ fuel ih =>
      unfold pickLoop
      refine Eff.moves_ite (fun k => SameEnded.refl k) ?_
      refine Eff.Moves.bind (fun k => SameEnded.refl k) SameEnded.trans fun k => ?_
      refine (sameEnded_setProc p (hwake k.tick)).bind SameEnded.trans fun _ => ?_
      refine Eff.Moves.bind (fun k => SameEnded.refl k) SameEnded.trans fun proc => ?_
      exact Eff.moves_ite (fun k => SameEnded.refl k) (ih _)

theorem sameEnded_schedule : Eff.Moves SameEnded schedule := by
  refine Eff.Moves.bind (fun k => SameEnded.refl k) SameEnded.trans fun k => ?_
  split
  next cur head _ _ =>
    refine Eff.Moves.bind (Eff.Moves.bind (fun k => SameEnded.refl k) SameEnded.trans
      fun proc => sameEnded_pickLoop _ _ _ _) SameEnded.trans fun next => ?_
    cases next with
    | none => exact fun k => SameEnded.refl k
    | some next =>
        refine Eff.Moves.bind (fun k => ?_) SameEnded.trans (fun _ k => SameEnded.refl k)
        have hswitch := sameEnded_processSwitch next k
        unfold attemptStatus
        cases hrun : processSwitch next k with
        | mk r k' =>
            rw [hrun] at hswitch
            rcases r with (e | _ | _) | x
            · exact hswitch
            · exact hswitch
            · exact hswitch
            · exact hswitch
  next => exact fun k => SameEnded.refl k

/-- Of the processes in use only one has ended; the others that had not ended are still there,
with their identifiers. -/
structure EndsOnly (k k' : Kernel) (i : Nat) : Prop where
  ended : (k'.procs i).inUse = true → (k'.procs i).state = .terminated
  others : ∀ j < processMax, j ≠ i → (k.procs j).inUse = true → (k.procs j).state ≠ .terminated →
    (k'.procs j).inUse = true ∧ (k'.procs j).pid = (k.procs j).pid ∧
      (k'.procs j).state ≠ .terminated

/-- With unique identifiers the search finds the process that has the identifier. -/
theorem PidsOk.firstWith_eq (h : PidsOk k) (hchain : Chained k l) {i : Nat} (hi : i < processMax)
    (huse : (k.procs i).inUse = true) : firstWith k (k.procs i).pid l = some i := by
  unfold firstWith
  cases hfind : l.find? (fun j => (k.procs j).inUse && (k.procs j).pid == (k.procs i).pid) with
  | none =>
      have hnone := List.find?_eq_none.mp hfind i ((hchain.members i).mpr ⟨hi, huse⟩)
      rw [huse, beq_self_eq_true] at hnone
      exact absurd rfl hnone
  | some j =>
      have hj := (hchain.members j).mp (List.mem_of_find?_eq_some hfind)
      have hsat := List.find?_some hfind
      rw [Bool.and_eq_true, beq_iff_eq] at hsat
      rw [h.unique j hj.1 i hi hj.2 huse hsat.2]

/-- The state after a process has been marked as ended. -/
def marked (k : Kernel) (i : Nat) : Kernel :=
  { k with procs := Function.update k.procs i { k.procs i with state := .terminated } }

theorem marked_of_ne {i j : Nat} (hj : j ≠ i) : (marked k i).procs j = k.procs j :=
  Function.update_of_ne hj ..

theorem marked_self (k : Kernel) (i : Nat) :
    (marked k i).procs i = { k.procs i with state := .terminated } :=
  Function.update_self ..

theorem Orderly.marked (h : Orderly k l c) {i : Nat} (hi0 : i ≠ 0) :
    Queue (marked k i) l c :=
  h.toQueue.setState (f := fun r => { r with state := .terminated }) hi0
    (fun _ => ⟨rfl, rfl, rfl, rfl⟩) (fun _ => ProcessState.noConfusion)

/-- The rest of {lit}`process_terminate` after the process has been found and marked. -/
def afterMark (i : Nat) : KernelM Unit := do
  let cur ← Eff.gets Kernel.current
  if cur = some i then do
    schedule
    let cur' ← Eff.gets Kernel.current
    if cur' = some i then
      Eff.fail .panic
    else
      pure ()
  else
    processReap

theorem processTerminate_found {pid i : Nat} (hpid : pid ≠ 0)
    (hfind : findPid pid processMax k.processList k = (.ok (some i), k))
    (hstate : (k.procs i).state ≠ .terminated) :
    processTerminate pid k = afterMark i (Process.marked k i) := by
  unfold processTerminate
  rw [if_neg hpid, Eff.gets_bind_run, Eff.bind_ok hfind]
  dsimp only
  rw [Eff.gets_bind_run, if_neg hstate, setProc, Eff.modify_bind_run]
  rfl

/-- Ending a process that is not current reaps. -/
theorem Orderly.afterMark_other (h : Orderly k l c) {i : Nat} (hi0 : i ≠ 0) (hci : c ≠ i) :
    ∃ k' l', afterMark i (Process.marked k i) = (.ok (), k') ∧ Orderly k' l' c ∧
      Reaped (Process.marked k i) k' l := by
  have horderly : Orderly (Process.marked k i) l c :=
    ⟨h.marked hi0, by rw [marked_of_ne hci]; exact h.running⟩
  obtain ⟨k', l', hrun, h', hreaped⟩ := horderly.processReap_exact
  refine ⟨k', l', ?_, h', hreaped⟩
  unfold afterMark
  rw [Eff.gets_bind_run, if_neg (by rw [horderly.current, Option.some.injEq]; exact hci)]
  exact hrun

/-- Ending a process by its identifier ends that process and no other. -/
theorem Orderly.processTerminate_exact (h : Orderly k l c) (hok : PidsOk k) {i : Nat}
    (hi : i < processMax) (huse : (k.procs i).inUse = true) (hi0 : i ≠ 0)
    (hstate : (k.procs i).state ≠ .terminated) :
    ∃ k', processTerminate (k.procs i).pid k = (.ok (), k') ∧ EndsOnly k k' i := by
  have hpid : (k.procs i).pid ≠ 0 := fun hcon => hi0 ((hok.idle i hi huse).mp hcon)
  have hfind : findPid (k.procs i).pid processMax k.processList k = (.ok (some i), k) := by
    rw [findPid_eq h.chain h.toChained.length_le, hok.firstWith_eq h.toChained hi huse]
  rw [processTerminate_found hpid hfind hstate]
  have hqueue := h.marked hi0
  have hself : ((Process.marked k i).procs i).state = .terminated := by rw [marked_self]
  by_cases hci : c = i
  · -- the current process ends itself and another one takes over
    obtain ⟨k₂, hrun, ⟨n, hn, horderly⟩ | ⟨hc0, -⟩⟩ := hqueue.schedule_run
    · refine ⟨k₂, ?_, ?_, fun j hj hji hjuse hjstate => ?_⟩
      · unfold afterMark
        rw [Eff.gets_bind_run, if_pos (hqueue.current.trans (congrArg some hci)),
          Eff.bind_ok hrun, Eff.gets_bind_run,
          if_neg (by rw [horderly.current, Option.some.injEq, ← hci]; exact hn)]
        rfl
      · intro _
        have hended := sameEnded_schedule (Process.marked k i) i
        rw [hrun] at hended
        exact hended.mpr hself
      · have hended := sameEnded_schedule (Process.marked k i) j
        have hshape : SameShape (Process.marked k i) (schedule (Process.marked k i)).2 :=
          shaped_schedule _
        rw [hrun] at hended hshape
        rw [marked_of_ne hji] at hended
        refine ⟨?_, ?_, fun hcon => hjstate (hended.mp hcon)⟩
        · rw [hshape.inUse j, marked_of_ne hji]
          exact hjuse
        · rw [hshape.pid j, marked_of_ne hji]
    · exact absurd (hci.symm.trans hc0) hi0
  · obtain ⟨k₂, l₂, hrun, -, hreaped⟩ := h.afterMark_other hi0 hci
    refine ⟨k₂, hrun, fun hiuse => ?_, fun j hj hji hjuse hjstate => ?_⟩
    · have hkept := (hreaped.inUse_iff hqueue.toChained hi).mp hiuse
      rw [(hreaped.kept i (Or.inr hkept.2)).state]
      exact hself
    · have hkept : ¬ Reapable (Process.marked k i) j := by
        intro hreap
        rw [Reapable, marked_of_ne hji] at hreap
        exact hjstate hreap.2.1
      have hsame := hreaped.kept j (Or.inr hkept)
      rw [hsame.inUse, hsame.pid, hsame.state, marked_of_ne hji]
      exact ⟨hjuse, rfl, hjstate⟩

/-- What unique identifiers are good for: a call by an identifier reaches the process that has
it, and reaping takes away every process that has ended, other than the idle one. -/
structure PidLaw (k : Kernel) : Prop extends PidsOk k where
  terminate : ∀ i < processMax, (k.procs i).inUse = true → i ≠ 0 →
    (k.procs i).state ≠ .terminated →
    ∃ k', processTerminate (k.procs i).pid k = (.ok (), k') ∧ EndsOnly k k' i
  exitCode : ∀ i < processMax, (k.procs i).inUse = true →
    processGetExitCode (k.procs i).pid k = (if (k.procs i).state = .terminated then
      .ok (k.procs i).exitCode else .error (.status .Nbusy), k)
  reap : ∀ i < processMax, (k.procs i).inUse = true → i ≠ 0 → (k.procs i).state = .terminated →
    ∃ k', processReap k = (.ok (), k') ∧ (k'.procs i).inUse = false

theorem Orderly.pidLaw_iff (h : Orderly k l c) : PidLaw k ↔ PidsOk k := by
  refine ⟨fun hlaw => hlaw.toPidsOk, fun hok => ⟨hok, ?_, ?_, ?_⟩⟩
  · exact fun i hi huse hi0 hstate => h.processTerminate_exact hok hi huse hi0 hstate
  · intro i hi huse
    unfold processGetExitCode
    rw [Eff.gets_bind_run, exitCodeLoop_eq h.chain h.toChained.length_le,
      hok.firstWith_eq h.toChained hi huse]
  · intro i hi huse hi0 hstate
    obtain ⟨k', l', hrun, -, hreaped⟩ := h.processReap_exact
    refine ⟨k', hrun, hreaped.gone i ((h.members i).mpr ⟨hi, huse⟩) ⟨huse, hstate, ?_, ?_⟩⟩
    · intro hcur
      have hci : c = i := Option.some.inj (h.current.symm.trans hcur)
      have hrunning := h.running
      rw [hci, hstate] at hrunning
      cases hrunning
    · exact fun hcon => hi0 ((hok.idle i hi huse).mp hcon)

/-! ## Runs -/

/-- A call that makes a process meets a fresh identifier, if reaping leaves a slot for the
process. -/
def Call.NewPid (k : Kernel) : Call → Prop
  | .create entryPoint => entryPoint ≠ 0 → HasSlot k → FreshPid k
  | .createUser pml4 _ _ _ => pml4 ≠ 0 → HasSlot k → FreshPid k
  | _ => True

instance (k : Kernel) (call : Call) : Decidable (call.NewPid k) := by
  cases call <;> unfold Call.NewPid <;> infer_instance

/-- Every call of a run that makes a process meets a fresh identifier. -/
def NewPids (k : Kernel) : List Call → Prop
  | [] => True
  | call :: calls => call.NewPid k ∧ NewPids (call.exec k).2 calls

/-- One call keeps identifiers unique exactly when it meets a fresh one where it needs one. -/
theorem Orderly.step_pidsOk_iff (h : Orderly k l c) (hok : PidsOk k) (call : Call) :
    PidsOk (call.exec k).2 ↔ call.NewPid k := by
  have hquiet : ∀ {m : KernelM Unit}, MakesNone m → (PidsOk (m k).2 ↔ True) :=
    fun hm => ⟨fun _ => trivial, fun _ => hok.fewer (hm k)⟩
  -- the call drops the identifier that the creation returns
  have hdrop : ∀ m : KernelM Nat, ((do let _ ← m; pure () : KernelM Unit) k).2 = (m k).2 := by
    intro m
    cases hrun : m k with
    | mk r k' =>
        cases r with
        | ok x => rw [Eff.bind_ok hrun]; rfl
        | error e => rw [Eff.bind_error hrun]
  cases call with
  | create entryPoint =>
      change PidsOk (processCreate entryPoint k).2 ↔ (entryPoint ≠ 0 → HasSlot k → FreshPid k)
      unfold processCreate
      by_cases hnull : entryPoint = 0
      · rw [if_pos hnull]
        exact ⟨fun _ hcon => absurd hnull hcon, fun _ => hok⟩
      · rw [if_neg hnull, hdrop, h.createProc_pidsOk_iff hok]
        exact ⟨fun hfresh _ => hfresh, fun hfresh => hfresh hnull⟩
  | createUser pml4 entry stackTop heapStart =>
      change PidsOk (((do
        let _ ← processCreateUser pml4 entry stackTop heapStart
        pure () : KernelM Unit) k).2) ↔ (pml4 ≠ 0 → HasSlot k → FreshPid k)
      rw [hdrop, processCreateUser]
      by_cases hnull : pml4 = 0
      · rw [if_pos hnull]
        exact ⟨fun _ hcon => absurd hnull hcon, fun _ => hok⟩
      · rw [if_neg hnull, h.createProc_pidsOk_iff hok]
        exact ⟨fun hfresh _ => hfresh, fun hfresh => hfresh hnull⟩
  | switch p => exact hquiet (fewer_of_shaped (shaped_processSwitch p))
  | schedule => exact hquiet (fewer_of_shaped shaped_schedule)
  | sleep ticks => exact hquiet (fewer_of_shaped (shaped_processSleepTicks ticks))
  | tick => exact hquiet (fewer_modify fun _ => rfl)
  | terminate pid => exact hquiet (fewer_processTerminate pid)
  | exit code => exact hquiet (fewer_processExitWithCode code)
  | reap => exact hquiet fewer_processReap

/-- The same over a run. -/
theorem Orderly.runs_pidsOk_iff (h : Orderly k l c) (hok : PidsOk k) (calls : List Call) :
    (∀ done, done <+: calls → PidsOk (Call.runs k done)) ↔ NewPids k calls := by
  induction calls generalizing k l c with
  | nil =>
      refine ⟨fun _ => trivial, fun _ done hdone => ?_⟩
      rw [List.prefix_nil.mp hdone]
      exact hok
  | cons call calls ih =>
      obtain ⟨⟨l', c', h'⟩, -⟩ := h.step call
      constructor
      · intro hall
        have hok' : PidsOk (call.exec k).2 := hall [call] (List.prefix_cons_iff.mpr
          (Or.inr ⟨[], rfl, List.nil_prefix⟩))
        refine ⟨(h.step_pidsOk_iff hok call).mp hok', (ih h' hok').mp fun done hdone => ?_⟩
        exact hall (call :: done) (List.prefix_cons_iff.mpr (Or.inr ⟨done, rfl, hdone⟩))
      · rintro ⟨hnew, hrest⟩ done hdone
        have hok' := (h.step_pidsOk_iff hok call).mpr hnew
        rcases List.prefix_cons_iff.mp hdone with rfl | ⟨done', rfl, hdone'⟩
        · exact hok
        · exact (ih h' hok').mpr hrest done' hdone'

/-- After {lit}`process_init` there is the idle process only. -/
theorem processInit_pidsOk (hnone : k.processList = none) : PidsOk (processInit k).2 := by
  have h := processInit_orderly hnone
  have hzero : ∀ i < processMax, ((processInit k).2.procs i).inUse = true → i = 0 :=
    fun i hi huse => List.mem_singleton.mp ((h.members i).mpr ⟨hi, huse⟩)
  refine ⟨fun i hi j hj hiuse hjuse _ => ?_, fun i hi huse => ?_⟩
  · rw [hzero i hi hiuse, hzero j hj hjuse]
  · rw [hzero i hi huse]
    exact ⟨fun _ => rfl, fun _ => h.idle.2⟩

/-- In a run after {lit}`process_init`, identifiers are unique in every state, and every call by
an identifier reaches the process that has it, exactly when each creation that finds a slot
finds the next identifier different from zero and from those of the processes that reaping
leaves. -/
theorem pids_unique_iff {k₀ : Kernel} (hnone : k₀.processList = none) (calls : List Call) :
    (∀ done, done <+: calls → PidLaw (Call.runs (processInit k₀).2 done)) ↔
      NewPids (processInit k₀).2 calls := by
  have h := processInit_orderly hnone
  rw [← h.runs_pidsOk_iff (processInit_pidsOk hnone) calls]
  refine forall_congr' fun done => imp_congr_right fun _ => ?_
  obtain ⟨l', c', h'⟩ := h.runs done
  exact h'.pidLaw_iff

/-- Two threads start and one is ended. -/
theorem pids_unique_small :
    PidLaw (Call.runs (processInit bareKernel).2 [.create 1, .create 1, .terminate 1]) := by
  have hnew : NewPids (processInit bareKernel).2 [.create 1, .create 1, .terminate 1] :=
    ⟨by decide +kernel, by decide +kernel, trivial, trivial⟩
  have hnone : bareKernel.processList = none := rfl
  exact (pids_unique_iff hnone _).mpr hnew _ (List.prefix_refl _)

/-! ## The counter comes round -/

/-- The idle process is the only one, and the next identifier is known. -/
structure IdleOnly (k : Kernel) (n : Nat) : Prop where
  orderly : Orderly k [0] 0
  nextPid : k.nextPid = n

/-- A table in which only the idle process is in use. -/
theorem Orderly.idleOnly (h : Orderly k l c)
    (honly : ∀ i < processMax, (k.procs i).inUse = true → i = 0) : Orderly k [0] c := by
  obtain ⟨rest, rfl⟩ := h.toChained.eq_cons
  have hrest : rest = [] := by
    refine List.eq_nil_iff_forall_not_mem.mpr fun i hi => ?_
    obtain ⟨hlt, huse⟩ := (h.members i).mp (List.mem_cons_of_mem _ hi)
    have hi0 := honly i hlt huse
    rw [hi0] at hi
    exact (List.nodup_cons.mp h.chain.nodup).1 hi
  rw [hrest] at h
  exact h

/-- A thread starts beside the idle process. -/
theorem IdleOnly.create {n : Nat} (h : IdleOnly k n) :
    ∃ slot, slot ≠ 0 ∧ Orderly ((Call.create 1).exec k).2 [0, slot] 0 ∧
      ((Call.create 1).exec k).2.nextPid = (n + 1) % 2 ^ 32 ∧
      (((Call.create 1).exec k).2.procs slot).pid = n ∧
      (((Call.create 1).exec k).2.procs slot).state = .ready := by
  have hzero : ∀ i < processMax, (k.procs i).inUse = true → i = 0 :=
    fun i hi huse => List.mem_singleton.mp ((h.orderly.members i).mpr ⟨hi, huse⟩)
  obtain ⟨k₁, l₁, hreap, h₁, hreaped⟩ := h.orderly.processReap_exact
  have horderly : Orderly k₁ [0] 0 := by
    refine h₁.idleOnly fun i hi huse => hzero i hi ?_
    exact ((hreaped.inUse_iff h.orderly.toChained hi).mp huse).1
  rcases horderly.toChained.createProc_run h.orderly.idle.1 hreap Proc.zero with
    ⟨hfull, -⟩ | ⟨l₂, q, slot, hl, hslot, hslot0, hfree, hrun⟩
  · have huse := findSlot_none hfull 1 (by decide)
    exact absurd ((horderly.members 1).mpr ⟨by decide, huse⟩) (by decide)
  · obtain ⟨rfl, rfl⟩ : l₂ = [] ∧ q = 0 := by
      cases l₂ with
      | nil => exact ⟨rfl, (List.cons.inj hl).1.symm⟩
      | cons x l₂ =>
          rw [List.cons_append, List.cons.injEq] at hl
          exact absurd hl.2.symm (List.append_ne_nil_of_right_ne_nil _ (List.cons_ne_nil _ _))
    have hexec : ((Call.create 1).exec k).2 =
        appended k₁ 0 slot (startImage Proc.zero k₁.nextPid) := by
      change ((do let _ ← createProc Proc.zero; pure () : KernelM Unit) k).2 = _
      rw [Eff.bind_ok hrun]
      rfl
    have hnext : k₁.nextPid = n := hreaped.nextPid.trans h.nextPid
    rw [hexec]
    refine ⟨slot, hslot0, ?_, ?_, ?_, ?_⟩
    · rw [hl] at horderly
      exact horderly.append hslot hslot0 hfree rfl rfl rfl
    · change (k₁.nextPid + 1) % 2 ^ 32 = _
      rw [hnext]
    · rw [appended_self (Ne.symm hslot0)]
      exact hnext
    · rw [appended_self (Ne.symm hslot0)]
      rfl

/-- The thread is ended by its identifier and reaped. -/
theorem IdleOnly.round {n : Nat} (h : IdleOnly k n) (hn : n ≠ 0) :
    IdleOnly (Call.runs k [.create 1, .terminate n]) ((n + 1) % 2 ^ 32) := by
  obtain ⟨slot, hslot0, h₁, hnext, hpid, hstate⟩ := h.create
  obtain ⟨k₁, hk₁⟩ : ∃ k₁, k₁ = ((Call.create 1).exec k).2 := ⟨_, rfl⟩
  rw [← hk₁] at h₁ hnext hpid hstate
  have hruns : Call.runs k [.create 1, .terminate n] = (processTerminate n k₁).2 := by
    rw [hk₁]
    rfl
  have huse : (k₁.procs slot).inUse = true := ((h₁.members slot).mp (by simp)).2
  have hfind : findPid n processMax k₁.processList k₁ = (.ok (some slot), k₁) := by
    rw [findPid_eq h₁.chain h₁.toChained.length_le]
    unfold firstWith
    rw [List.find?_cons_of_neg (by rw [h₁.idle.2]; simp [Ne.symm hn]),
      List.find?_cons_of_pos (by rw [huse, hpid]; simp)]
  rw [hruns, processTerminate_found hn hfind (by rw [hstate]; decide)]
  obtain ⟨k₂, l₂, hrun, h₂, hreaped⟩ := h₁.afterMark_other hslot0 (Ne.symm hslot0)
  rw [hrun]
  refine ⟨h₂.idleOnly fun i hi hiuse => ?_, hreaped.nextPid.trans hnext⟩
  have hmarked := h₁.marked hslot0
  have hkept := (hreaped.inUse_iff hmarked.toChained hi).mp hiuse
  have hmem : i ∈ [0, slot] := (hmarked.members i).mpr ⟨hi, hkept.1⟩
  rcases List.mem_cons.mp hmem with hi0 | hmem
  · exact hi0
  · -- the thread itself has been reaped
    obtain rfl := List.mem_singleton.mp hmem
    refine absurd ⟨hkept.1, by rw [marked_self], ?_, ?_⟩ hkept.2
    · rw [hmarked.current]
      exact fun hcon => hslot0 (Option.some.inj hcon).symm
    · rw [marked_self]
      exact fun hcon => hn (hpid.symm.trans hcon)

/-- After as many rounds as there are identifiers other than zero, the next one is zero. -/
theorem IdleOnly.rounds (h : IdleOnly k 1) (m : Nat) (hm : m < 2 ^ 32) :
    ∃ calls, IdleOnly (Call.runs k calls) ((m + 1) % 2 ^ 32) := by
  induction m with
  | zero => exact ⟨[], h⟩
  | succ m ih =>
      obtain ⟨calls, hat⟩ := ih (by omega)
      have hround := hat.round (by omega)
      rw [Nat.mod_add_mod] at hround
      refine ⟨calls ++ [.create 1, .terminate ((m + 1) % 2 ^ 32)], ?_⟩
      unfold Call.runs at hround ⊢
      rw [List.foldl_append]
      exact hround

/-- When the counter has come round, a new thread gets the identifier of the idle process: it
cannot be ended by its identifier, and it will not be reaped. -/
theorem pid_zero_twice :
    ∃ calls, ∃ i < processMax, i ≠ 0 ∧
      ((Call.runs (processInit bareKernel).2 calls).procs i).inUse = true ∧
      ((Call.runs (processInit bareKernel).2 calls).procs i).pid = 0 ∧
      ¬ PidLaw (Call.runs (processInit bareKernel).2 calls) := by
  have hboot : IdleOnly (processInit bareKernel).2 1 := ⟨processInit_orderly rfl, rfl⟩
  obtain ⟨calls, hat⟩ := hboot.rounds (2 ^ 32 - 1) (by omega)
  obtain ⟨slot, hslot0, h, -, hpid, -⟩ := hat.create
  have hruns : Call.runs (processInit bareKernel).2 (calls ++ [.create 1]) =
      ((Call.create 1).exec (Call.runs (processInit bareKernel).2 calls)).2 := by
    unfold Call.runs
    rw [List.foldl_append]
    rfl
  have hzero : (2 ^ 32 - 1 + 1) % 2 ^ 32 = 0 := by omega
  obtain ⟨hslot, huse⟩ := (h.members slot).mp (by simp)
  rw [hzero] at hpid
  refine ⟨calls ++ [.create 1], slot, hslot, hslot0, ?_⟩
  rw [hruns]
  exact ⟨huse, hpid, fun hlaw => hslot0 ((hlaw.idle slot hslot huse).mp hpid)⟩

end Process
end Nyxis
