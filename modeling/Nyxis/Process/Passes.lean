import Nyxis.Process.Identifiers
import Nyxis.Lib.Rotation

/-!
# The passes of the scheduler

Which process the round-robin policy takes, which processes it looks at on the way, and which calls
of {lit}`process.c` and {lit}`schedule.c` run it.  A pass wakes at most one process, the one it
takes.  The calls that run no pass take processes out of the chain or put one at its end.

Main results:

- Theorem {lit}`Queue.schedPickNext_exact`: the policy takes the first process behind the current
  one that is ready or due.
- Theorem {lit}`Queue.schedule_exact`: what a pass leaves.
- Theorem {lit}`Orderly.exec_cases`: every call runs one pass, or switches, or reshapes the chain,
  or counts a tick.
-/

namespace Nyxis
namespace Process

variable {k k' k₁ : Kernel} {l l' : List Nat} {c : Nat}

/-! ## What the policy takes -/

/-- A process that the search ends at: it is ready, or asleep and due. -/
def Eligible (k : Kernel) (i : Nat) : Prop :=
  (k.procs i).inUse = true ∧ (wake k.tick (k.procs i)).state = .ready

instance (k : Kernel) (i : Nat) : Decidable (Eligible k i) :=
  inferInstanceAs (Decidable (_ ∧ _))

/-- The process that the policy takes. -/
def picked (k : Kernel) (l : List Nat) (c : Nat) : Option Nat :=
  (rotation l c).find? (fun i => decide (Eligible k i))

/-- The state after one process has been woken if it is due. -/
def Kernel.woken (k : Kernel) (p : Nat) : Kernel :=
  { k with procs := Function.update k.procs p (wake k.tick (k.procs p)) }

/-- The state after the policy has taken a process. -/
def afterPick (k : Kernel) : Option Nat → Kernel
  | some p => k.woken p
  | none => k

/-- The slots that the loop of {lit}`sched_pick_next` looks at. -/
def pickVisits (current head : Nat) : (fuel p : Nat) → Kernel → List Nat
  | fuel, p, k =>
      if p = current then []
      else
        match fuel with
        | 0 => []
        | fuel + 1 =>
            if ((k.woken p).procs p).inUse ∧ ((k.woken p).procs p).state = .ready then [p]
            else p :: pickVisits current head fuel (((k.woken p).procs p).next.getD head) (k.woken p)

theorem wake_eq_self {tick : Nat} {r : Proc} (h : (wake tick r).state ≠ .ready) :
    wake tick r = r := by
  unfold wake at h ⊢
  split at h
  next hdue =>
    rw [if_pos hdue]
    exact absurd rfl h
  next hdue => rw [if_neg hdue]

theorem Kernel.woken_procs_self (k : Kernel) (p : Nat) :
    (k.woken p).procs p = wake k.tick (k.procs p) :=
  Function.update_self ..

theorem Kernel.woken_procs_of_ne (k : Kernel) {p i : Nat} (h : i ≠ p) :
    (k.woken p).procs i = k.procs i :=
  Function.update_of_ne h ..

/-- Looking at a process that stays asleep does nothing. -/
theorem Kernel.woken_eq_self {p : Nat} (huse : (k.procs p).inUse = true) (h : ¬ Eligible k p) :
    k.woken p = k := by
  have hsame : wake k.tick (k.procs p) = k.procs p :=
    wake_eq_self fun hready => h ⟨huse, hready⟩
  unfold Kernel.woken
  rw [hsame, Function.update_eq_self]

theorem Kernel.woken_eligible {p : Nat} :
    ((k.woken p).procs p).inUse = true ∧ ((k.woken p).procs p).state = .ready ↔ Eligible k p := by
  rw [Kernel.woken_procs_self, (wake_fields k.tick (k.procs p)).2.1]
  rfl

/-- One look of the loop. -/
theorem pickLoop_succ {p fuel : Nat} (hpc : p ≠ c) (huse : (k.procs p).inUse = true) :
    pickLoop c 0 (fuel + 1) p k =
      if Eligible k p then (.ok (some p), k.woken p)
      else pickLoop c 0 fuel ((k.procs p).next.getD 0) k := by
  have hrun : pickLoop c 0 (fuel + 1) p k =
      if ((k.woken p).procs p).inUse = true ∧ ((k.woken p).procs p).state = .ready then
        (.ok (some p), k.woken p)
      else pickLoop c 0 fuel (((k.woken p).procs p).next.getD 0) (k.woken p) := by
    obtain ⟨k₁, hk₁⟩ : ∃ k₁, k₁ = k.woken p := ⟨_, rfl⟩
    rw [← hk₁, pickLoop]
    rw [Kernel.woken] at hk₁
    simp only [hpc, if_false, Eff.gets_bind_run, id, setProc, Eff.modify_bind_run, ← hk₁]
    split
    next => rfl
    next => rfl
  rw [hrun]
  by_cases h : Eligible k p
  · rw [if_pos (Kernel.woken_eligible.mpr h), if_pos h]
  · rw [if_neg (fun hcon => h (Kernel.woken_eligible.mp hcon)), if_neg h,
      Kernel.woken_eq_self huse h]

/-- The loop takes the first process of its round that is ready or due. -/
theorem pickLoop_exact {fuel p : Nat} {w : List Nat} (huse : ∀ i ∈ w, (k.procs i).inUse = true)
    (hround : Round (nextOf k.procs) 0 c w p) (hfuel : w.length ≤ fuel) :
    pickLoop c 0 fuel p k = (.ok (w.find? (fun i => decide (Eligible k i))),
      afterPick k (w.find? (fun i => decide (Eligible k i)))) := by
  induction w generalizing fuel p with
  | nil =>
      have hp : p = c := hround
      cases fuel with
      | zero => simp [pickLoop, hp, afterPick]
      | succ fuel => simp [pickLoop, hp, afterPick]
  | cons x w ih =>
      obtain ⟨rfl, hpc, hrest⟩ := hround
      cases fuel with
      | zero => cases hfuel
      | succ fuel =>
          rw [pickLoop_succ hpc (huse p (List.mem_cons_self ..))]
          by_cases h : Eligible k p
          · rw [if_pos h, List.find?_cons_of_pos (by simpa using h)]
            rfl
          · rw [if_neg h, List.find?_cons_of_neg (by simpa using h)]
            exact ih (fun i hi => huse i (List.mem_cons_of_mem _ hi)) hrest
              (Nat.le_of_succ_le_succ hfuel)

/-- The loop takes the first process that it looks at and finds ready or due. -/
theorem pickVisits_eligible {fuel p i : Nat} {w : List Nat}
    (huse : ∀ i ∈ w, (k.procs i).inUse = true) (hround : Round (nextOf k.procs) 0 c w p)
    (hfuel : w.length ≤ fuel) (hi : i ∈ pickVisits c 0 fuel p k) (h : Eligible k i) :
    w.find? (fun i => decide (Eligible k i)) = some i := by
  induction w generalizing fuel p with
  | nil =>
      have hp : p = c := hround
      cases fuel with
      | zero => simp [pickVisits, hp] at hi
      | succ fuel => simp [pickVisits, hp] at hi
  | cons x w ih =>
      obtain ⟨rfl, hpc, hrest⟩ := hround
      cases fuel with
      | zero => cases hfuel
      | succ fuel =>
          have hp := huse p (List.mem_cons_self ..)
          rw [pickVisits, if_neg hpc] at hi
          by_cases hfirst : Eligible k p
          · rw [if_pos (Kernel.woken_eligible.mpr hfirst), List.mem_singleton] at hi
            rw [List.find?_cons_of_pos (by simpa using hfirst), hi]
          · rw [if_neg (fun hcon => hfirst (Kernel.woken_eligible.mp hcon)),
              Kernel.woken_eq_self hp hfirst] at hi
            rw [List.find?_cons_of_neg (by simpa using hfirst)]
            rcases List.mem_cons.mp hi with rfl | hi
            · exact absurd h hfirst
            · exact ih (fun i hi => huse i (List.mem_cons_of_mem _ hi)) hrest
                (Nat.le_of_succ_le_succ hfuel) hi

/-- The loop looks at the process that it takes. -/
theorem mem_pickVisits_of_find {fuel p i : Nat} {w : List Nat}
    (huse : ∀ i ∈ w, (k.procs i).inUse = true) (hround : Round (nextOf k.procs) 0 c w p)
    (hfuel : w.length ≤ fuel) (hfind : w.find? (fun i => decide (Eligible k i)) = some i) :
    i ∈ pickVisits c 0 fuel p k := by
  induction w generalizing fuel p with
  | nil => cases hfind
  | cons x w ih =>
      obtain ⟨rfl, hpc, hrest⟩ := hround
      cases fuel with
      | zero => cases hfuel
      | succ fuel =>
          have hp := huse p (List.mem_cons_self ..)
          rw [pickVisits, if_neg hpc]
          by_cases hfirst : Eligible k p
          · rw [List.find?_cons_of_pos (by simpa using hfirst)] at hfind
            rw [if_pos (Kernel.woken_eligible.mpr hfirst), Option.some.inj hfind]
            exact List.mem_singleton.mpr rfl
          · rw [List.find?_cons_of_neg (by simpa using hfirst)] at hfind
            rw [if_neg (fun hcon => hfirst (Kernel.woken_eligible.mp hcon)),
              Kernel.woken_eq_self hp hfirst]
            exact List.mem_cons_of_mem _ (ih (fun i hi => huse i (List.mem_cons_of_mem _ hi)) hrest
              (Nat.le_of_succ_le_succ hfuel) hfind)

/-- Behind the current process the policy goes round the chain. -/
theorem Queue.round_rotation (h : Queue k l c) :
    Round (nextOf k.procs) 0 c (rotation l c) ((k.procs c).next.getD 0) ∧
      (rotation l c).length ≤ processMax ∧ ∀ i ∈ rotation l c, (k.procs i).inUse = true := by
  have hnodup := h.chain.nodup
  refine ⟨?_, ?_, fun i hi => ((h.members i).mp ((mem_rotation hnodup h.mem).mp hi).1).2⟩
  · obtain ⟨l₁, l₂, rfl, hc₁, hc₂, hrot⟩ := exists_rotation hnodup h.mem
    have hchain := h.chain
    rw [h.idle.1] at hchain
    rw [hrot]
    exact Round.back hchain.tail_of_append hc₂ (Round.front hchain hc₁)
  · obtain ⟨l₁, l₂, rfl, -, -, hrot⟩ := exists_rotation hnodup h.mem
    have := h.toChained.length_le
    rw [hrot]
    simp only [List.length_append, List.length_cons] at this ⊢
    omega

/-- The policy takes the first process behind the current one that is ready or due. -/
theorem Queue.schedPickNext_exact (h : Queue k l c) :
    schedPickNext c 0 k = (.ok (picked k l c), afterPick k (picked k l c)) := by
  obtain ⟨hround, hlen, huse⟩ := h.round_rotation
  exact pickLoop_exact huse hround hlen

/-! ## What a pass leaves -/

/-- The state after a switch from one process to another. -/
def switchTo (k : Kernel) (c p : Nat) : Kernel :=
  let procs := Function.update k.procs c
    (if (k.procs c).state = .running then { k.procs c with state := .ready } else k.procs c)
  { k with
    current := some p
    procs := Function.update procs p { procs p with state := .running } }

theorem switchTo_procs_self {p : Nat} (hpc : p ≠ c) :
    (switchTo k c p).procs p = { k.procs p with state := .running } := by
  unfold switchTo
  dsimp only
  rw [Function.update_self, Function.update_of_ne hpc]

theorem switchTo_procs_of_ne {p i : Nat} (hp : i ≠ p) (hc : i ≠ c) :
    (switchTo k c p).procs i = k.procs i := by
  unfold switchTo
  dsimp only
  rw [Function.update_of_ne hp, Function.update_of_ne hc]

/-- A process that was not running is not changed by a switch away from it. -/
theorem switchTo_procs_old {p : Nat} (hpc : p ≠ c) (hstate : (k.procs c).state ≠ .running) :
    (switchTo k c p).procs c = k.procs c := by
  unfold switchTo
  dsimp only
  rw [Function.update_of_ne (Ne.symm hpc), Function.update_self, if_neg hstate]

theorem processSwitch_exact {p : Nat} (hcur : k.current = some c) (hpc : p ≠ c)
    (huse : (k.procs p).inUse = true) (hready : (k.procs p).state = .ready) :
    processSwitch p k = (.ok (), switchTo k c p) := by
  unfold processSwitch
  rw [Eff.gets_bind_run, Eff.gets_bind_run, if_neg (by simp [huse, hready]),
    if_neg (by rw [hcur, Option.some.injEq]; exact Ne.symm hpc), hcur]
  rfl

/-- The state after a pass. -/
def passed (k : Kernel) (l : List Nat) (c : Nat) : Kernel :=
  match picked k l c with
  | some p => switchTo (k.woken p) c p
  | none => k

theorem Queue.picked_spec (h : Queue k l c) {p : Nat} (hp : picked k l c = some p) :
    p ∈ l ∧ p ≠ c ∧ Eligible k p := by
  obtain ⟨hl, hne⟩ := (mem_rotation h.chain.nodup h.mem).mp (List.mem_of_find?_eq_some hp)
  have hsat := List.find?_some (p := fun i => decide (Eligible k i)) hp
  exact ⟨hl, hne, of_decide_eq_true hsat⟩

/-- A pass switches to the process that the policy takes. -/
theorem Queue.schedule_exact (h : Queue k l c) : schedule k = (.ok (), passed k l c) := by
  unfold schedule
  rw [Eff.gets_bind_run]
  dsimp only [id]
  rw [h.current, h.idle.1]
  dsimp only
  rw [Eff.bind_ok h.schedPickNext_exact]
  unfold passed
  cases hp : picked k l c with
  | none => rfl
  | some p =>
      obtain ⟨hpl, hpc, heligible⟩ := h.picked_spec hp
      have hready := Kernel.woken_eligible.mpr heligible
      have hswitch : processSwitch p (k.woken p) = (.ok (), switchTo (k.woken p) c p) :=
        processSwitch_exact h.current hpc hready.1 hready.2
      have hattempt : attemptStatus (processSwitch p) (k.woken p) =
          (.ok (.ok ()), switchTo (k.woken p) c p) := by
        simp [attemptStatus, hswitch]
      exact Eff.bind_ok hattempt

/-- Where the policy takes a process, that one runs and the table is orderly. -/
theorem Queue.passed_some (h : Queue k l c) {p : Nat} (hp : picked k l c = some p) :
    Orderly (passed k l c) l p := by
  have hexact := h.schedule_exact
  obtain ⟨k', hrun, ⟨n, -, horderly⟩ | ⟨-, hwoken⟩⟩ := h.schedule_run
  · rw [hexact] at hrun
    obtain rfl : passed k l c = k' := congrArg Prod.snd hrun
    have hcur := horderly.current
    rw [passed, hp] at hcur
    rwa [← Option.some.inj hcur] at horderly
  · rw [hexact] at hrun
    obtain rfl : passed k l c = k' := congrArg Prod.snd hrun
    have hcur := hwoken.current
    rw [passed, hp, h.current] at hcur
    exact absurd (Option.some.inj hcur) (h.picked_spec hp).2.1

/-- The policy takes a process unless the idle one is current. -/
theorem Queue.picked_ne_none (h : Queue k l c) (hc : c ≠ 0) : picked k l c ≠ none := by
  obtain ⟨r, k', hrun, -, -, hnone⟩ := h.schedPickNext_run
  rw [h.schedPickNext_exact] at hrun
  obtain rfl : picked k l c = r := Except.ok.inj (congrArg Prod.fst hrun)
  exact hnone hc

/-! ## Calls that run no pass -/

/-- The reaping loop takes processes out of the chain and keeps the order of the others. -/
theorem Chained.reapLoop_sublist (fuel : Nat) {l₁ l₂ : List Nat} {q : Nat}
    (h : Chained k (l₁ ++ q :: l₂)) (hfuel : l₂.length ≤ fuel) :
    ∃ k' l', reapLoop fuel l₂.head? (some q) k = (.ok (), k') ∧
      Linked (nextOf k'.procs) k'.processList l' ∧ l'.Sublist (l₁ ++ q :: l₂) ∧
      k'.tick = k.tick := by
  induction l₂ generalizing fuel l₁ q k with
  | nil =>
      refine ⟨k, _, ?_, h.chain, List.Sublist.refl _, rfl⟩
      cases fuel with
      | zero => rfl
      | succ fuel => rfl
  | cons p l₂ ih =>
      cases fuel with
      | zero => cases hfuel
      | succ fuel =>
          have hlen : l₂.length ≤ fuel := Nat.le_of_succ_le_succ hfuel
          have hnext : (k.procs p).next = l₂.head? := by
            have hp : Linked (nextOf k.procs) (some p) (p :: l₂) := by
              have := h.chain.tail_of_append
              rwa [this.head_eq] at this
            exact hp.2.head_eq
          rw [List.head?_cons]
          by_cases hreap : (k.procs p).state = .terminated ∧ k.current ≠ some p ∧
              (k.procs p).pid ≠ 0
          · obtain ⟨m, hrun⟩ := reapLoop_remove fuel q p k hreap
            obtain ⟨k', l', hloop, hchain, hsub, htick⟩ := ih fuel (h.unlink m hreap.2.2) hlen
            refine ⟨k', l', ?_, hchain, hsub.trans ?_, htick⟩
            · rw [hrun, hnext]
              exact hloop
            · exact List.Sublist.append_left ((List.sublist_cons_self p l₂).cons_cons q) l₁
          · have hrun : reapLoop (fuel + 1) (some p) (some q) k =
                reapLoop fuel (k.procs p).next (some p) k := by
              simp [reapLoop, hreap]
            have hassoc : l₁ ++ q :: p :: l₂ = (l₁ ++ [q]) ++ p :: l₂ := by simp
            rw [hassoc] at h ⊢
            obtain ⟨k', l', hloop, hkept⟩ := ih fuel h hlen
            refine ⟨k', l', ?_, hkept⟩
            rw [hrun, hnext]
            exact hloop

/-- Reaping takes away the processes that it can and keeps the order of the others. -/
theorem Orderly.processReap_sublist (h : Orderly k l c) :
    ∃ k' l', processReap k = (.ok (), k') ∧ Orderly k' l' c ∧ Reaped k k' l ∧ l'.Sublist l ∧
      k'.tick = k.tick := by
  obtain ⟨hhead, hpid⟩ := h.idle
  obtain ⟨rest, rfl⟩ := h.toChained.eq_cons
  have hlen : rest.length ≤ 15 := by
    have := h.toChained.length_le
    simp only [List.length_cons, processMax] at this
    omega
  have hnext : (k.procs 0).next = rest.head? := h.chain.2.head_eq
  have hskip : processReap k = reapLoop 15 (k.procs 0).next (some 0) k := by
    simp [processReap, hhead, processMax, reapLoop, hpid]
  have hchained : Chained k ([] ++ 0 :: rest) := h.toChained
  obtain ⟨k₁, l₁, hloop, hchain, hsub, htick⟩ := hchained.reapLoop_sublist 15 hlen
  obtain ⟨k₂, l₂, hrun, horderly, hreaped⟩ := h.processReap_exact
  rw [hskip, hnext, hloop] at hrun
  obtain rfl : k₁ = k₂ := congrArg Prod.snd hrun
  rw [hchain.unique horderly.chain] at hsub
  refine ⟨k₁, l₂, ?_, horderly, hreaped, hsub, htick⟩
  rw [hskip, hnext, hloop]

/-- A call that runs no pass takes processes out of the chain, puts at most one at its end, and
leaves the others as they are. -/
structure Reshaped (k k' : Kernel) (l l' : List Nat) : Prop where
  order : ∃ m, m.Sublist l ∧ (l' = m ∨ ∃ x, x ∉ m ∧ l' = m ++ [x] ∧ (k'.procs x).state = .ready ∧
    (x ∈ l → (k.procs x).state = .terminated))
  tick : k'.tick = k.tick
  kept : ∀ i ∈ l, (k.procs i).state ≠ .terminated → (k'.procs i).inUse = true →
    (k'.procs i).state = (k.procs i).state ∧ (k'.procs i).wakeTick = (k.procs i).wakeTick

theorem Reshaped.refl (k : Kernel) (l : List Nat) : Reshaped k k l l :=
  ⟨⟨l, List.Sublist.refl l, Or.inl rfl⟩, rfl, fun _ _ _ _ => ⟨rfl, rfl⟩⟩

theorem SameBut.wakeTick {i : Nat} (h : SameBut k k' i) :
    (k'.procs i).wakeTick = (k.procs i).wakeTick := by
  obtain ⟨n, hn⟩ := h
  rw [hn]

/-- Reaping after some processes have been marked as ended. -/
theorem Reaped.reshaped (h : Reaped k₁ k' l) (hsub : l'.Sublist l) (htick : k'.tick = k.tick)
    (hchained : Chained k₁ l)
    (hkept : ∀ i ∈ l, (k.procs i).state ≠ .terminated → ¬ Reapable k₁ i →
      (k₁.procs i).state = (k.procs i).state ∧ (k₁.procs i).wakeTick = (k.procs i).wakeTick) :
    Reshaped k k' l l' := by
  refine ⟨⟨l', hsub, Or.inl rfl⟩, htick, fun i hi hstate huse => ?_⟩
  have hreap := ((h.inUse_iff hchained ((hchained.members i).mp hi).1).mp huse).2
  have hsame := h.kept i (Or.inr hreap)
  obtain ⟨hstate', hwake⟩ := hkept i hi hstate hreap
  exact ⟨hsame.state.trans hstate', hsame.wakeTick.trans hwake⟩

theorem Orderly.createProc_reshaped (h : Orderly k l c) (img : Proc) :
    ∃ l', Orderly (createProc img k).2 l' c ∧ Reshaped k (createProc img k).2 l l' := by
  obtain ⟨k₁, l₁, hreap, h₁, hreaped, hsub, htick⟩ := h.processReap_sublist
  have hsame : ∀ i ∈ l, (k.procs i).state ≠ .terminated → SameBut k k₁ i :=
    fun i _ hstate => hreaped.kept i (Or.inr fun hcon => hstate hcon.2.1)
  rcases h₁.toChained.createProc_run h.idle.1 hreap img with
    ⟨-, hrun⟩ | ⟨l₂, q, slot, rfl, hslot, hzero, hfree, hrun⟩
  · rw [hrun]
    exact ⟨l₁, h₁, ⟨l₁, hsub, Or.inl rfl⟩, htick,
      fun i hi hstate _ => ⟨(hsame i hi hstate).state, (hsame i hi hstate).wakeTick⟩⟩
  · rw [hrun]
    have hslotl : slot ∉ l₂ ++ [q] := by
      intro hcon
      have := ((h₁.members slot).mp hcon).2
      rw [hfree] at this
      cases this
    have hqs : q ≠ slot := by
      rintro rfl
      exact hslotl (by simp)
    have hgone : slot ∈ l → (k.procs slot).state = .terminated := by
      intro hmem
      by_contra hstate
      have huse := (hsame slot hmem hstate).inUse
      rw [hfree, ((h.members slot).mp hmem).2] at huse
      cases huse
    refine ⟨_, h₁.append hslot hzero hfree rfl rfl rfl, ⟨l₂ ++ [q], hsub, Or.inr ⟨slot, hslotl,
      by simp, ?_, hgone⟩⟩, htick, fun i hi hstate _ => ?_⟩
    · rw [appended_self hqs]
      rfl
    · have his : i ≠ slot := by
        rintro rfl
        exact hstate (hgone hi)
      have happended : SameBut k₁ (appended k₁ q slot (startImage img k₁.nextPid)) i :=
        appended_of_ne his
      have hall := (hsame i hi hstate).trans happended
      exact ⟨hall.state, hall.wakeTick⟩

/-! ## Calls -/

/-- The state in which a call that ends the process with an identifier runs a pass: that process
is current and marked as ended. -/
def terminatePass (k : Kernel) (pid : Nat) : Option Kernel :=
  if pid = 0 then none
  else
    match (findPid pid processMax k.processList k).1 with
    | .ok (some p) =>
        if (k.procs p).state = .terminated ∨ k.current ≠ some p then none else some (marked k p)
    | _ => none

/-- The state after the current process has gone to sleep. -/
def sleeping (k : Kernel) (c ticks : Nat) : Kernel :=
  { k with procs := Function.update k.procs c { k.procs c with
      wakeTick := (k.tick + (if ticks = 0 then 1 else ticks)) % 2 ^ 64, state := .blocked } }

/-- The state after the current process has left its exit code. -/
def exiting (k : Kernel) (c : Nat) (code : Int) : Kernel :=
  { k with
    procs := Function.update k.procs c { k.procs c with exitCode := code }
    lastExitCode := code }

/-- The state in which a call runs {lit}`schedule`, if it does. -/
def Call.passState (k : Kernel) : Call → Option Kernel
  | .schedule => some k
  | .sleep ticks =>
      match k.current with
      | some c => if (k.procs c).pid = 0 then none else some (sleeping k c ticks)
      | none => none
  | .terminate pid => terminatePass k pid
  | .exit code =>
      match k.current with
      | some c =>
          if (k.procs c).pid = 0 then none else terminatePass (exiting k c code) (k.procs c).pid
      | none => none
  | _ => none

/-- The process that the pass of a call takes. -/
def Call.selected (k : Kernel) (call : Call) : Option Nat :=
  match call.passState k with
  | some k₁ =>
      match k₁.current, k₁.processList with
      | some c, some head =>
          match (schedPickNext c head k₁).1 with
          | .ok r => r
          | .error _ => none
      | _, _ => none
  | none => none

/-- Before its pass a call changes the current process only. -/
structure AtPass (k k₁ : Kernel) (c : Nat) : Prop where
  tick : k₁.tick = k.tick
  others : ∀ i, i ≠ c → k₁.procs i = k.procs i

/-- What a call does that runs a pass. -/
structure RunsPass (k k' : Kernel) (k₁ : Kernel) (l : List Nat) (c : Nat) : Prop where
  queue : Queue k₁ l c
  start : AtPass k k₁ c
  result : k' = passed k₁ l c

theorem Queue.selected_eq (h : Queue k₁ l c) {call : Call} (hpass : call.passState k = some k₁) :
    call.selected k = picked k₁ l c := by
  unfold Call.selected
  rw [hpass]
  dsimp only
  rw [h.current, h.idle.1]
  dsimp only
  rw [h.schedPickNext_exact]

theorem processTerminate_missed {pid : Nat} {r : Option Nat} (hpid : pid ≠ 0)
    (hfind : findPid pid processMax k.processList k = (.ok r, k))
    (hmiss : ∀ p, r = some p → (k.procs p).state = .terminated) :
    (processTerminate pid k).2 = k := by
  unfold processTerminate
  rw [if_neg hpid, Eff.gets_bind_run, Eff.bind_ok hfind]
  cases r with
  | none => rfl
  | some p =>
      dsimp only
      rw [Eff.gets_bind_run, if_pos (hmiss p rfl)]
      rfl

/-- Ending a process runs a pass or reshapes the chain. -/
theorem Orderly.processTerminate_cases (h : Orderly k l c) (pid : Nat) :
    (∃ k₁, terminatePass k pid = some k₁ ∧ RunsPass k (processTerminate pid k).2 k₁ l c) ∨
      (terminatePass k pid = none ∧ ∃ l', Orderly (processTerminate pid k).2 l' c ∧
        Reshaped k (processTerminate pid k).2 l l') := by
  unfold terminatePass
  by_cases hpid : pid = 0
  · rw [if_pos hpid]
    refine Or.inr ⟨rfl, l, ?_⟩
    unfold processTerminate
    rw [if_pos hpid]
    exact ⟨h, Reshaped.refl k l⟩
  · rw [if_neg hpid]
    obtain ⟨r, hfind, hr⟩ : ∃ r, findPid pid processMax k.processList k = (.ok r, k) ∧
        ∀ n, r = some n → n ∈ l ∧ (k.procs n).pid = pid :=
      findPid_run h.chain h.toChained.length_le
    rw [hfind]
    cases r with
    | none =>
        refine Or.inr ⟨rfl, l, ?_⟩
        rw [processTerminate_missed hpid hfind nofun]
        exact ⟨h, Reshaped.refl k l⟩
    | some p =>
        dsimp only
        obtain ⟨hp, hpp⟩ := hr p rfl
        have hp0 : p ≠ 0 := by
          rintro rfl
          rw [h.idle.2] at hpp
          exact hpid hpp.symm
        by_cases hstate : (k.procs p).state = .terminated
        · rw [if_pos (Or.inl hstate)]
          refine Or.inr ⟨rfl, l, ?_⟩
          rw [processTerminate_missed hpid hfind (fun n hn => Option.some.inj hn ▸ hstate)]
          exact ⟨h, Reshaped.refl k l⟩
        rw [processTerminate_found hpid hfind hstate]
        have hqueue := h.marked hp0
        by_cases hcp : c = p
        · -- the current process ends itself
          rw [if_neg (by rw [h.current, hcp]; simp [hstate])]
          refine Or.inl ⟨_, rfl, hqueue, ⟨rfl, fun i hi => marked_of_ne (hcp ▸ hi)⟩, ?_⟩
          unfold afterMark
          rw [Eff.gets_bind_run, if_pos (hqueue.current.trans (congrArg some hcp)),
            Eff.bind_ok hqueue.schedule_exact, Eff.gets_bind_run]
          split
          next => rfl
          next => rfl
        · rw [if_pos (Or.inr (by rw [h.current, ne_eq, Option.some.injEq]; exact hcp))]
          have horderly : Orderly (Process.marked k p) l c :=
            ⟨hqueue, by rw [marked_of_ne hcp]; exact h.running⟩
          obtain ⟨k₂, l₂, hrun, h₂, hreaped, hsub, htick⟩ := horderly.processReap_sublist
          have hafter : afterMark p (Process.marked k p) = (.ok (), k₂) := by
            unfold afterMark
            rw [Eff.gets_bind_run,
              if_neg (by rw [hqueue.current, Option.some.injEq]; exact hcp)]
            exact hrun
          rw [hafter]
          refine Or.inr ⟨rfl, l₂, h₂, hreaped.reshaped hsub htick hqueue.toChained ?_⟩
          intro i hi _ hkeep
          have hip : i ≠ p := by
            rintro rfl
            refine hkeep ⟨((hqueue.members i).mp hi).2, by rw [marked_self], ?_, ?_⟩
            · rw [hqueue.current, ne_eq, Option.some.injEq]
              exact hcp
            · rw [marked_self]
              exact fun hcon => hpid (hpp.symm.trans hcon)
          rw [marked_of_ne hip]
          exact ⟨rfl, rfl⟩

theorem Call.runs_append (k : Kernel) (done calls : List Call) :
    Call.runs k (done ++ calls) = Call.runs (Call.runs k done) calls :=
  List.foldl_append

theorem Call.runs_cons (k : Kernel) (call : Call) (calls : List Call) :
    Call.runs k (call :: calls) = Call.runs (call.exec k).2 calls :=
  rfl

theorem Orderly.current_pid (h : Orderly k l c) (hpid : (k.procs c).pid ≠ 0) : c ≠ 0 := by
  rintro rfl
  exact hpid h.idle.2

/-- Going to sleep runs a pass. -/
theorem Orderly.processSleepTicks_pass (h : Orderly k l c) (hpid : (k.procs c).pid ≠ 0)
    (ticks : Nat) :
    Queue (sleeping k c ticks) l c ∧
      processSleepTicks ticks k = (.ok (), passed (sleeping k c ticks) l c) := by
  have hc0 := h.current_pid hpid
  have hqueue : Queue (sleeping k c ticks) l c :=
    h.toQueue.setState (p := c) (f := fun r => { r with
      wakeTick := (k.tick + (if ticks = 0 then 1 else ticks)) % 2 ^ 64, state := .blocked }) hc0
      (fun _ => ⟨rfl, rfl, rfl, rfl⟩) (fun hne => absurd rfl hne)
  refine ⟨hqueue, ?_⟩
  have hset : setProc c (fun r => { r with
      wakeTick := (k.tick + (if ticks = 0 then 1 else ticks)) % 2 ^ 64, state := .blocked }) k =
      (.ok (), sleeping k c ticks) := rfl
  obtain ⟨p, hp⟩ := Option.ne_none_iff_exists'.mp (hqueue.picked_ne_none hc0)
  have haway : ¬ ((passed (sleeping k c ticks) l c).current = some c ∧
      ((passed (sleeping k c ticks) l c).procs c).state = .blocked) := by
    rw [(hqueue.passed_some hp).current]
    exact fun hcon => (hqueue.picked_spec hp).2.1 (Option.some.inj hcon.1)
  unfold processSleepTicks
  rw [Eff.gets_bind_run]
  dsimp only [id]
  rw [h.current]
  dsimp only
  rw [if_neg hpid, Eff.bind_ok hset, Eff.bind_ok hqueue.schedule_exact, Eff.gets_bind_run]
  dsimp only [id]
  rw [if_neg haway]
  rfl

/-- Before its pass a call may have changed the current process further. -/
theorem AtPass.trans {k₂ : Kernel} (h : AtPass k k₁ c) (h' : AtPass k₁ k₂ c) : AtPass k k₂ c :=
  ⟨h'.tick.trans h.tick, fun i hi => (h'.others i hi).trans (h.others i hi)⟩

theorem exiting_procs (k : Kernel) (c i : Nat) (code : Int) :
    ((exiting k c code).procs i).state = (k.procs i).state ∧
      ((exiting k c code).procs i).wakeTick = (k.procs i).wakeTick := by
  unfold exiting
  dsimp only
  by_cases hi : i = c
  · rw [hi, Function.update_self]
    exact ⟨rfl, rfl⟩
  · rw [Function.update_of_ne hi]
    exact ⟨rfl, rfl⟩

theorem Orderly.exiting (h : Orderly k l c) (hc0 : c ≠ 0) (code : Int) :
    Orderly (Process.exiting k c code) l c := by
  have hqueue := h.toQueue.setState (p := c) (f := fun r => { r with exitCode := code }) hc0
    (fun _ => ⟨rfl, rfl, rfl, rfl⟩) (fun hne => absurd rfl hne)
  refine ⟨hqueue.congr ⟨rfl, rfl, fun _ => rfl, fun _ => rfl, fun _ => rfl, fun _ => rfl⟩ rfl
    (fun _ _ _ hrun => hrun) rfl, ?_⟩
  rw [(exiting_procs k c c code).1]
  exact h.running

/-- An exit leaves the exit code and ends the current process. -/
theorem Orderly.processExitWithCode_cases (h : Orderly k l c) (code : Int) :
    (∃ k₁, (Call.exit code).passState k = some k₁ ∧
        RunsPass k (processExitWithCode code k).2 k₁ l c) ∨
      ((Call.exit code).passState k = none ∧ ∃ l', Orderly (processExitWithCode code k).2 l' c ∧
        Reshaped k (processExitWithCode code k).2 l l') := by
  unfold processExitWithCode Call.passState
  rw [Eff.gets_bind_run]
  dsimp only [id]
  rw [h.current]
  dsimp only
  by_cases hpid : (k.procs c).pid = 0
  · rw [if_pos hpid, if_pos hpid]
    exact Or.inr ⟨rfl, l, h, Reshaped.refl k l⟩
  · rw [if_neg hpid, if_neg hpid]
    have hexiting := h.exiting (h.current_pid hpid) code
    have hstart : AtPass k (Process.exiting k c code) c :=
      ⟨rfl, fun i hi => Function.update_of_ne hi ..⟩
    have hrun : ((do
        setProc c (fun r => { r with exitCode := code })
        Eff.modify (fun k => { k with lastExitCode := code })
        processTerminate (k.procs c).pid : KernelM Unit) k) =
        processTerminate (k.procs c).pid (Process.exiting k c code) := rfl
    rw [hrun]
    rcases hexiting.processTerminate_cases (k.procs c).pid with
      ⟨k₁, hpass, hqueue, hstart', hresult⟩ | ⟨hnone, l', horderly, horder, htick, hkept⟩
    · exact Or.inl ⟨k₁, hpass, hqueue, hstart.trans hstart', hresult⟩
    · refine Or.inr ⟨hnone, l', horderly, ?_, htick, fun i hi hstate huse => ?_⟩
      · obtain ⟨m, hsub, hcase⟩ := horder
        refine ⟨m, hsub, hcase.imp_right ?_⟩
        rintro ⟨x, hx, hl, hready, hgone⟩
        exact ⟨x, hx, hl, hready, fun hmem => (exiting_procs k c x code).1 ▸ hgone hmem⟩
      · obtain ⟨hsame, hsame'⟩ := exiting_procs k c i code
        obtain ⟨hstate', hwake⟩ := hkept i hi (by rw [hsame]; exact hstate) huse
        exact ⟨hstate'.trans hsame, hwake.trans hsame'⟩

/-- What a direct switch does. -/
inductive Switched (k k' : Kernel) (l : List Nat) (c : Nat) : Prop
  | same (h : k' = k)
  | moved (p : Nat) (hp : p ∈ l) (hpc : p ≠ c) (hready : (k.procs p).state = .ready)
      (horderly : Orderly k' l p) (h : k' = switchTo k c p)

/-- Every call runs one pass, or switches directly, or counts a tick, or reshapes the chain. -/
theorem Orderly.exec_cases (h : Orderly k l c) (call : Call) :
    (∃ k₁, call.passState k = some k₁ ∧ RunsPass k (call.exec k).2 k₁ l c) ∨
    (∃ p, call = .switch p ∧ Switched k (call.exec k).2 l c) ∨
    (call = .tick ∧ (call.exec k).2 = { k with tick := (k.tick + 1) % 2 ^ 64 }) ∨
    (call.passState k = none ∧ ∃ l', Orderly (call.exec k).2 l' c ∧
      Reshaped k (call.exec k).2 l l') := by
  -- the call drops the identifier that the creation returns
  have hdrop : ∀ m : KernelM Nat, ((do let _ ← m; pure () : KernelM Unit) k).2 = (m k).2 := by
    intro m
    cases hrun : m k with
    | mk r k' =>
        cases r with
        | ok x => rw [Eff.bind_ok hrun]; rfl
        | error e => rw [Eff.bind_error hrun]
  cases call with
  | create entryPoint =>
      refine Or.inr (Or.inr (Or.inr ⟨rfl, ?_⟩))
      change ∃ l', Orderly (processCreate entryPoint k).2 l' c ∧
        Reshaped k (processCreate entryPoint k).2 l l'
      unfold processCreate
      split
      next => exact ⟨l, h, Reshaped.refl k l⟩
      next =>
        rw [hdrop]
        exact h.createProc_reshaped _
  | createUser pml4 entry stackTop heapStart =>
      refine Or.inr (Or.inr (Or.inr ⟨rfl, ?_⟩))
      have hexec : ((Call.createUser pml4 entry stackTop heapStart).exec k).2 =
          (processCreateUser pml4 entry stackTop heapStart k).2 := hdrop _
      rw [hexec]
      unfold processCreateUser
      split
      next => exact ⟨l, h, Reshaped.refl k l⟩
      next => exact h.createProc_reshaped _
  | switch p =>
      refine Or.inr (Or.inl ⟨p, rfl, ?_⟩)
      change Switched k (processSwitch p k).2 l c
      by_cases hbad : (k.procs p).inUse = false ∨ (k.procs p).state ≠ .ready
      · refine .same ?_
        unfold processSwitch
        rw [Eff.gets_bind_run, Eff.gets_bind_run, if_pos hbad]
        rfl
      · rw [not_or, not_not, Bool.not_eq_false] at hbad
        have hp : p.val ∈ l := (h.members p).mpr ⟨p.isLt, hbad.1⟩
        have hpc : p.val ≠ c := by
          intro heq
          have := h.running
          rw [← heq, hbad.2] at this
          cases this
        obtain ⟨k', hrun, horderly⟩ := h.toQueue.processSwitch_run hp hpc hbad.2
        rw [processSwitch_exact h.current hpc hbad.1 hbad.2] at hrun ⊢
        obtain rfl : switchTo k c p = k' := congrArg Prod.snd hrun
        exact .moved p hp hpc hbad.2 horderly rfl
  | schedule =>
      refine Or.inl ⟨k, rfl, h.toQueue, ⟨rfl, fun _ _ => rfl⟩, ?_⟩
      change (schedule k).2 = _
      rw [h.schedule_exact]
  | sleep ticks =>
      change (∃ k₁, (match k.current with
        | some c => if (k.procs c).pid = 0 then none else some (sleeping k c ticks)
        | none => none) = some k₁ ∧ RunsPass k (processSleepTicks ticks k).2 k₁ l c) ∨ _
      by_cases hpid : (k.procs c).pid = 0
      · refine Or.inr (Or.inr (Or.inr ⟨?_, l, ?_⟩))
        · change (match k.current with
            | some c => if (k.procs c).pid = 0 then none else some (sleeping k c ticks)
            | none => none) = none
          rw [h.current]
          exact if_pos hpid
        · have hsame : (processSleepTicks ticks k).2 = k := by
            unfold processSleepTicks
            rw [Eff.gets_bind_run]
            dsimp only [id]
            rw [h.current]
            dsimp only
            rw [if_pos hpid]
            rfl
          change Orderly (processSleepTicks ticks k).2 l c ∧
            Reshaped k (processSleepTicks ticks k).2 l l
          rw [hsame]
          exact ⟨h, Reshaped.refl k l⟩
      · obtain ⟨hqueue, hrun⟩ := h.processSleepTicks_pass hpid ticks
        rw [h.current]
        refine Or.inl ⟨_, if_neg hpid, hqueue, ⟨rfl, fun i hi => Function.update_of_ne hi ..⟩, ?_⟩
        rw [hrun]
  | tick => exact Or.inr (Or.inr (Or.inl ⟨rfl, rfl⟩))
  | terminate pid =>
      rcases h.processTerminate_cases pid with hpass | hnone
      · exact Or.inl hpass
      · exact Or.inr (Or.inr (Or.inr hnone))
  | exit code =>
      rcases h.processExitWithCode_cases code with hpass | hnone
      · exact Or.inl hpass
      · exact Or.inr (Or.inr (Or.inr hnone))
  | reap =>
      refine Or.inr (Or.inr (Or.inr ⟨rfl, ?_⟩))
      obtain ⟨k', l', hrun, h', hreaped, hsub, htick⟩ := h.processReap_sublist
      change ∃ l', Orderly (processReap k).2 l' c ∧ Reshaped k (processReap k).2 l l'
      rw [hrun]
      exact ⟨l', h', hreaped.reshaped hsub htick h.toChained (fun _ _ _ _ => ⟨rfl, rfl⟩)⟩

end Process
end Nyxis
