import Nyxis.Process.Ownership

/-!
# The process table under the scheduler

The chain of processes, their states and the current process under every call of
{lit}`process.c` and {lit}`schedule.c`, whatever the address spaces hold.  Inside a call the
current process may be blocked or terminated for a while; {lit}`Queue` is what holds then
as well, and {lit}`Orderly` is what holds between the calls.

Main results:

- Theorem {lit}`Queue.schedPickNext_run`: the policy ends, and finds a process unless the
  idle one is current.
- Theorem {lit}`Queue.schedule_run`: a switch leaves the table orderly.
- Theorem {lit}`Orderly.step`: every call keeps the table orderly, and neither hangs nor
  panics for want of a process.
- Theorem {lit}`scheduler_invariant`: the same over every run.
-/

namespace Nyxis
namespace Process

open Mm

variable {k k' : Kernel} {l : List Nat} {c : Nat}

/-! ## The invariant -/

/-- The table while a call is under way: the current process may be in any state, no other
one is running, and the idle process runs or is ready. -/
structure Queue (k : Kernel) (l : List Nat) (c : Nat) : Prop extends Chained k l where
  current : k.current = some c
  mem : c ∈ l
  others : ∀ i ∈ l, i ≠ c → (k.procs i).state ≠ .running
  idleState : (k.procs 0).state = if c = 0 then .running else .ready

/-- The table between two calls. -/
structure Orderly (k : Kernel) (l : List Nat) (c : Nat) : Prop extends Queue k l c where
  running : (k.procs c).state = .running

/-- The state of a table whose chain, slots and current process are the same. -/
theorem Queue.congr (h : Queue k l c) (hshape : SameShape k k') (hcurrent : k'.current = k.current)
    (hothers : ∀ i ∈ l, i ≠ c → (k'.procs i).state = .running → (k.procs i).state = .running)
    (hidle : (k.procs 0).state = (k'.procs 0).state) : Queue k' l c where
  chain := by
    rw [hshape.list]
    exact h.chain.congr (fun i _ => hshape.next i)
  members i := by rw [h.members i, hshape.inUse i]
  idle := ⟨hshape.list.trans h.idle.1, (hshape.pid 0).trans h.idle.2⟩
  current := hcurrent.trans h.current
  mem := h.mem
  others i hi hne hrun := h.others i hi hne (hothers i hi hne hrun)
  idleState := by
    rw [← hidle]
    exact h.idleState

/-! ## One round over the chain -/

/-- The slots that the round-robin policy visits from a slot on, until it is back at the
current process. -/
def Round (next : Nat → Option Nat) (head c : Nat) : List Nat → Nat → Prop
  | [], p => p = c
  | x :: w, p => p = x ∧ x ≠ c ∧ Round next head c w ((next x).getD head)

theorem Round.front {next : Nat → Option Nat} {head : Nat} {l₁ l₂ : List Nat} {p : Nat}
    (h : Linked next (some p) (l₁ ++ c :: l₂)) (hc : c ∉ l₁) : Round next head c l₁ p := by
  induction l₁ generalizing p with
  | nil => exact Option.some.inj h.1
  | cons x l₁ ih =>
      obtain ⟨hx, hrest⟩ := h
      rw [List.mem_cons, not_or] at hc
      refine ⟨Option.some.inj hx, Ne.symm hc.1, ?_⟩
      obtain ⟨y, hy⟩ : ∃ y, next x = some y := by
        have := hrest.head_eq
        cases l₁ with
        | nil => exact ⟨c, this⟩
        | cons y l₁ => exact ⟨y, this⟩
      rw [hy] at hrest ⊢
      exact ih hrest hc.2

theorem Round.back {next : Nat → Option Nat} {head : Nat} {l₂ w : List Nat} {q : Option Nat}
    (h : Linked next q l₂) (hc : c ∉ l₂) (hw : Round next head c w head) :
    Round next head c (l₂ ++ w) (q.getD head) := by
  induction l₂ generalizing q with
  | nil =>
      rw [Linked.nil_iff] at h
      rw [h]
      exact hw
  | cons x l₂ ih =>
      obtain ⟨hx, hrest⟩ := h
      rw [List.mem_cons, not_or] at hc
      rw [hx]
      exact ⟨rfl, Ne.symm hc.1, ih hrest hc.2⟩

/-- Behind the current process the policy visits all others. -/
theorem Queue.round (h : Queue k l c) :
    ∃ w, Round (nextOf k.procs) 0 c w ((k.procs c).next.getD 0) ∧ w.length ≤ processMax ∧
      ∀ i, i ∈ w ↔ i ∈ l ∧ i ≠ c := by
  obtain ⟨l₁, l₂, rfl⟩ := List.append_of_mem h.mem
  have hnodup := h.chain.nodup
  obtain ⟨-, htail, hdis⟩ := List.nodup_append.mp hnodup
  have hc₁ : c ∉ l₁ := fun hcon => hdis c hcon c (List.mem_cons_self ..) rfl
  have hc₂ : c ∉ l₂ := (List.nodup_cons.mp htail).1
  have hchain := h.chain
  rw [h.idle.1] at hchain
  refine ⟨l₂ ++ l₁, Round.back hchain.tail_of_append hc₂ (Round.front hchain hc₁), ?_, ?_⟩
  · have := h.toChained.length_le
    simp only [List.length_append, List.length_cons] at this ⊢
    omega
  · intro i
    simp only [List.mem_append, List.mem_cons]
    constructor
    · rintro (hi | hi)
      · exact ⟨Or.inr (Or.inr hi), fun heq => hc₂ (heq ▸ hi)⟩
      · exact ⟨Or.inl hi, fun heq => hc₁ (heq ▸ hi)⟩
    · rintro ⟨hi | hi | hi, hne⟩
      · exact Or.inr hi
      · exact absurd hi hne
      · exact Or.inl hi

/-! ## The policy -/

theorem wake_fields (tick : Nat) (r : Proc) :
    (wake tick r).next = r.next ∧ (wake tick r).inUse = r.inUse ∧
      (wake tick r).addrspace = r.addrspace ∧ (wake tick r).pid = r.pid := by
  unfold wake
  split
  next => exact ⟨rfl, rfl, rfl, rfl⟩
  next => exact ⟨rfl, rfl, rfl, rfl⟩

theorem wake_state (tick : Nat) (r : Proc) :
    (wake tick r).state = r.state ∨ r.state = .blocked ∧ (wake tick r).state = .ready := by
  unfold wake
  split
  next hcond => exact Or.inr ⟨hcond.2.1, rfl⟩
  next => exact Or.inl rfl

/-- Some processes other than the current one have been woken. -/
structure Woken (c : Nat) (k k' : Kernel) : Prop where
  shape : SameShape k k'
  current : k'.current = k.current
  self : k'.procs c = k.procs c
  state : ∀ i, (k'.procs i).state = (k.procs i).state ∨
    (k.procs i).state = .blocked ∧ (k'.procs i).state = .ready

theorem Woken.refl (c : Nat) (k : Kernel) : Woken c k k :=
  ⟨SameShape.refl k, rfl, rfl, fun _ => Or.inl rfl⟩

theorem Woken.trans {k'' : Kernel} (h : Woken c k k') (h' : Woken c k' k'') : Woken c k k'' where
  shape := h.shape.trans h'.shape
  current := h'.current.trans h.current
  self := h'.self.trans h.self
  state i := by
    rcases h.state i with heq | ⟨hblocked, hready⟩
    · rw [← heq]
      exact h'.state i
    · rcases h'.state i with heq | ⟨hcon, -⟩
      · exact Or.inr ⟨hblocked, heq.trans hready⟩
      · rw [hready] at hcon
        cases hcon

/-- Waking one process. -/
theorem Woken.one {p : Nat} (hpc : p ≠ c) (k : Kernel) :
    Woken c k { k with procs := Function.update k.procs p (wake k.tick (k.procs p)) } where
  shape := shaped_setProc p (f := wake k.tick) (fun r => wake_fields k.tick r) k
  current := rfl
  self := Function.update_of_ne (Ne.symm hpc) ..
  state i := by
    by_cases hi : i = p
    · rw [hi]
      dsimp only
      rw [Function.update_self]
      exact wake_state _ _
    · dsimp only
      rw [Function.update_of_ne hi]
      exact Or.inl rfl

theorem Queue.woken (h : Queue k l c) (hw : Woken c k k') : Queue k' l c := by
  refine h.congr hw.shape hw.current ?_ ?_
  · intro i _ _ hrun
    rcases hw.state i with heq | ⟨-, hready⟩
    · rwa [← heq]
    · rw [hready] at hrun
      cases hrun
  · rcases hw.state 0 with heq | ⟨hblocked, -⟩
    · exact heq.symm
    · have := h.idleState
      rw [hblocked] at this
      split at this
      next => cases this
      next => cases this

/-- One round of the policy ends with a ready process, or has found none. -/
theorem Queue.pickLoop_run {fuel p : Nat} {w : List Nat} (h : Queue k l c)
    (hround : Round (nextOf k.procs) 0 c w p) (hfuel : w.length ≤ fuel) (hw : ∀ i ∈ w, i ∈ l) :
    ∃ r k', pickLoop c 0 fuel p k = (.ok r, k') ∧ Woken c k k' ∧
      (∀ n, r = some n → n ∈ w ∧ n ≠ c ∧ (k'.procs n).state = .ready) ∧
      (0 ∈ w → r ≠ none) := by
  induction w generalizing fuel p k with
  | nil =>
      refine ⟨none, k, ?_, Woken.refl c k, (by intro n hn; cases hn), (by intro h0; cases h0)⟩
      have hp : p = c := hround
      cases fuel <;> simp [pickLoop, hp]
  | cons x w ih =>
      obtain ⟨rfl, hpc, hrest⟩ := hround
      cases fuel with
      | zero => simp at hfuel
      | succ fuel =>
          have hpl := hw p (List.mem_cons_self ..)
          obtain ⟨-, huse⟩ := (h.members p).mp hpl
          obtain ⟨k₁, hk₁⟩ : ∃ k₁, k₁ = ({ k with
            procs := Function.update k.procs p (wake k.tick (k.procs p)) } : Kernel) := ⟨_, rfl⟩
          have hwoken : Woken c k k₁ := by
            rw [hk₁]
            exact Woken.one hpc k
          have huse₁ : (k₁.procs p).inUse = true := by rw [hwoken.shape.inUse, huse]
          have hrun : pickLoop c 0 (fuel + 1) p k =
              if (k₁.procs p).inUse = true ∧ (k₁.procs p).state = .ready then (.ok (some p), k₁)
              else pickLoop c 0 fuel ((k₁.procs p).next.getD 0) k₁ := by
            rw [pickLoop]
            simp only [hpc, if_false, Eff.gets_bind_run, id, setProc, Eff.modify_bind_run, ← hk₁]
            split
            next => rfl
            next => rfl
          by_cases hready : (k₁.procs p).state = .ready
          · refine ⟨some p, k₁, ?_, hwoken, ?_, fun _ => Option.some_ne_none p⟩
            · rw [hrun, if_pos ⟨huse₁, hready⟩]
            · intro n hn
              cases hn
              exact ⟨List.mem_cons_self .., hpc, hready⟩
          · have hround₁ : Round (nextOf k₁.procs) 0 c w ((k₁.procs p).next.getD 0) := by
              have hnext : nextOf k₁.procs = nextOf k.procs := funext hwoken.shape.next
              rw [hnext, hwoken.shape.next p]
              exact hrest
            obtain ⟨r, k₂, hrun₂, hwoken₂, hfound, hidle⟩ := ih (h.woken hwoken) hround₁
              (Nat.le_of_succ_le_succ hfuel) (fun i hi => hw i (List.mem_cons_of_mem _ hi))
            refine ⟨r, k₂, ?_, hwoken.trans hwoken₂, ?_, ?_⟩
            · rw [hrun, if_neg (fun hcon => hready hcon.2)]
              exact hrun₂
            · intro n hn
              obtain ⟨hmem, hnc, hstate⟩ := hfound n hn
              exact ⟨List.mem_cons_of_mem _ hmem, hnc, hstate⟩
            · intro h0
              rcases List.mem_cons.mp h0 with h0 | h0
              · -- the idle process is ready, so the round has ended here
                exfalso
                have hidle := (h.woken hwoken).idleState
                rw [h0, if_neg (Ne.symm hpc)] at hidle
                exact hready hidle
              · exact hidle h0

/-- The policy ends; it finds a ready process other than the current one unless the idle
process is current. -/
theorem Queue.schedPickNext_run (h : Queue k l c) :
    ∃ r k', schedPickNext c 0 k = (.ok r, k') ∧ Woken c k k' ∧
      (∀ n, r = some n → n ∈ l ∧ n ≠ c ∧ (k'.procs n).state = .ready) ∧ (c ≠ 0 → r ≠ none) := by
  obtain ⟨w, hround, hlen, hmem⟩ := h.round
  obtain ⟨r, k', hrun, hwoken, hfound, hidle⟩ :=
    h.pickLoop_run hround hlen (fun i hi => ((hmem i).mp hi).1)
  refine ⟨r, k', hrun, hwoken, ?_, ?_⟩
  · intro n hn
    obtain ⟨hw, hnc, hready⟩ := hfound n hn
    exact ⟨((hmem n).mp hw).1, hnc, hready⟩
  · intro hc
    refine hidle ((hmem 0).mpr ⟨?_, Ne.symm hc⟩)
    obtain ⟨rest, hl⟩ := h.toChained.eq_cons
    rw [hl]
    exact List.mem_cons_self ..

/-! ## Switching -/

/-- A switch to a ready process leaves the table orderly. -/
theorem Queue.processSwitch_run {p : Nat} (h : Queue k l c) (hp : p ∈ l) (hne : p ≠ c)
    (hready : (k.procs p).state = .ready) :
    ∃ k', processSwitch p k = (.ok (), k') ∧ Orderly k' l p := by
  have huse := ((h.members p).mp hp).2
  obtain ⟨f, hf⟩ : ∃ f : Proc → Proc, f = fun r =>
    if r.state = .running then { r with state := .ready } else r := ⟨_, rfl⟩
  have hkeep : ∀ r, (f r).next = r.next ∧ (f r).inUse = r.inUse ∧
      (f r).addrspace = r.addrspace ∧ (f r).pid = r.pid := by
    intro r
    rw [hf]
    dsimp only
    split
    next => exact ⟨rfl, rfl, rfl, rfl⟩
    next => exact ⟨rfl, rfl, rfl, rfl⟩
  obtain ⟨k₁, hk₁⟩ : ∃ k₁, k₁ = ({ k with
    procs := Function.update k.procs c (f (k.procs c)) } : Kernel) := ⟨_, rfl⟩
  have hself₁ : k₁.procs c = f (k.procs c) := by
    rw [hk₁]
    exact Function.update_self ..
  have hother₁ : ∀ i, i ≠ c → k₁.procs i = k.procs i := by
    intro i hi
    rw [hk₁]
    exact Function.update_of_ne hi ..
  obtain ⟨k₂, hk₂⟩ : ∃ k₂, k₂ = ({ k₁ with
    current := some p
    procs := Function.update k₁.procs p { k₁.procs p with state := .running } } : Kernel) :=
    ⟨_, rfl⟩
  have hself₂ : k₂.procs p = { k₁.procs p with state := .running } := by
    rw [hk₂]
    exact Function.update_self ..
  have hother₂ : ∀ i, i ≠ p → k₂.procs i = k₁.procs i := by
    intro i hi
    rw [hk₂]
    exact Function.update_of_ne hi ..
  have hshape : SameShape k k₂ := by
    have h₁ : SameShape k k₁ := by
      rw [hk₁]
      exact shaped_setProc c hkeep k
    refine h₁.trans ?_
    have h₂ := shaped_setProc p (f := fun r => { r with state := .running })
      (fun _ => ⟨rfl, rfl, rfl, rfl⟩) k₁
    rw [hk₂]
    exact ⟨rfl, rfl, h₂.next, h₂.inUse, h₂.addrspace, h₂.pid⟩
  have hnotrun : (k₁.procs c).state ≠ .running := by
    rw [hself₁, hf]
    dsimp only
    split
    next => exact ProcessState.noConfusion
    next hnot => exact hnot
  refine ⟨k₂, ?_, ⟨⟨⟨?_, ?_, ?_⟩, by rw [hk₂], hp, ?_, ?_⟩, by rw [hself₂]⟩⟩
  · unfold processSwitch
    simp only [Eff.gets_bind_run, h.current, huse, hready]
    rw [if_neg (by simp), if_neg (by rw [Option.some.injEq]; exact Ne.symm hne)]
    rw [hk₂, hk₁, hf]
    rfl
  · rw [hshape.list]
    exact h.chain.congr (fun i _ => hshape.next i)
  · intro i
    rw [h.members i, hshape.inUse i]
  · exact ⟨hshape.list.trans h.idle.1, (hshape.pid 0).trans h.idle.2⟩
  · intro i hi hip
    rw [hother₂ i hip]
    by_cases hic : i = c
    · rw [hic]
      exact hnotrun
    · rw [hother₁ i hic]
      exact h.others i hi hic
  · have hidle := h.idleState
    by_cases hp0 : p = 0
    · rw [if_pos hp0, ← hp0, hself₂]
    · rw [if_neg hp0, hother₂ 0 (Ne.symm hp0)]
      by_cases hc0 : c = 0
      · rw [if_pos hc0] at hidle
        rw [← hc0, hself₁, hf]
        dsimp only
        rw [hc0, hidle, if_pos rfl]
      · rw [if_neg hc0] at hidle
        rw [hother₁ 0 (Ne.symm hc0), hidle]

/-- The scheduler switches away from the current process unless that is the idle one and no
other is ready. -/
theorem Queue.schedule_run (h : Queue k l c) :
    ∃ k', schedule k = (.ok (), k') ∧
      ((∃ p, p ≠ c ∧ Orderly k' l p) ∨ (c = 0 ∧ Woken c k k')) := by
  obtain ⟨r, k₁, hpick, hwoken, hfound, hnone⟩ := h.schedPickNext_run
  have hstart : schedule k = (match r with
      | some next => (attemptStatus (processSwitch next) >>= fun _ => pure () : KernelM Unit) k₁
      | none => (.ok (), k₁)) := by
    unfold schedule
    rw [Eff.gets_bind_run]
    dsimp only [id]
    rw [h.current, h.idle.1]
    dsimp only
    rw [Eff.bind_ok hpick]
    cases r with
    | none => rfl
    | some next => rfl
  cases r with
  | none =>
      refine ⟨k₁, hstart, Or.inr ⟨?_, hwoken⟩⟩
      by_contra hc
      exact hnone hc rfl
  | some p =>
      obtain ⟨hp, hpc, hready⟩ := hfound p rfl
      obtain ⟨k₂, hswitch, horderly⟩ := (h.woken hwoken).processSwitch_run hp hpc hready
      have hattempt : attemptStatus (processSwitch p) k₁ = (.ok (.ok ()), k₂) := by
        simp [attemptStatus, hswitch]
      refine ⟨k₂, ?_, Or.inl ⟨p, hpc, horderly⟩⟩
      rw [hstart]
      exact Eff.bind_ok hattempt

theorem Orderly.schedule_run (h : Orderly k l c) :
    ∃ k' c', schedule k = (.ok (), k') ∧ Orderly k' l c' := by
  obtain ⟨k', hrun, ⟨p, -, horderly⟩ | ⟨-, hwoken⟩⟩ := h.toQueue.schedule_run
  · exact ⟨k', p, hrun, horderly⟩
  · refine ⟨k', c, hrun, h.toQueue.woken hwoken, ?_⟩
    rw [hwoken.self]
    exact h.running

/-! ## Reaping -/

theorem eachEntry_ok {body : Nat → MemM Unit} (hbody : ∀ e m, ∃ m', body e m = (.ok (), m'))
    (table n i : Nat) (m : Memory) : ∃ m', eachEntry table body i n m = (.ok (), m') := by
  induction n generalizing i m with
  | zero => exact ⟨m, rfl⟩
  | succ n ih =>
      obtain ⟨m₁, h₁⟩ := hbody (m.mem table i) m
      obtain ⟨m₂, h₂⟩ := ih (i + 1) m₁
      refine ⟨m₂, ?_⟩
      rw [eachEntry, Eff.gets_bind_run, Eff.bind_ok h₁]
      exact h₂

theorem destroyEntry_ok (level entry : Nat) (m : Memory) :
    ∃ m', destroyEntry level entry m = (.ok (), m') := by
  induction level generalizing entry m with
  | zero =>
      unfold destroyEntry
      split
      next => exact ⟨_, rfl⟩
      next => exact ⟨m, rfl⟩
  | succ level ih =>
      unfold destroyEntry
      split
      next =>
        obtain ⟨m₁, h₁⟩ := eachEntry_ok (fun e m => ih e m) (tableOf entry) entriesPerTable 0 m
        exact ⟨_, Eff.bind_ok h₁⟩
      next => exact ⟨m, rfl⟩

/-- Giving an address space back always returns, whatever its tables hold. -/
theorem onMemory_destroy_ok (s : Nat) (k : Kernel) :
    ∃ m, onMemory (pagingAddrspaceDestroy s) k = (.ok (), { k with memory := m }) := by
  obtain ⟨m, hm⟩ : ∃ m, pagingAddrspaceDestroy s k.memory = (.ok (), m) := by
    unfold pagingAddrspaceDestroy
    split
    next => exact ⟨k.memory, rfl⟩
    next =>
      obtain ⟨m₁, h₁⟩ := eachEntry_ok (destroyEntry_ok 3) s hhdmPml4Index 0 k.memory
      exact ⟨_, Eff.bind_ok h₁⟩
  exact ⟨m, onMemory_ok hm⟩

/-- One removal of the reaping loop. -/
theorem reapLoop_remove (fuel q p : Nat) (k : Kernel)
    (hreap : (k.procs p).state = .terminated ∧ k.current ≠ some p ∧ (k.procs p).pid ≠ 0) :
    ∃ m, reapLoop (fuel + 1) (some p) (some q) k =
      reapLoop fuel (k.procs p).next (some q) (unlinked k q p m) := by
  by_cases hspace : (k.procs p).addrspace = 0
  · refine ⟨k.memory, ?_⟩
    simp [reapLoop, hreap, hspace, setProc, unlinked]
  · obtain ⟨m, hdestroy⟩ := onMemory_destroy_ok (k.procs p).addrspace { k with
        procs := Function.update k.procs q { k.procs q with next := (k.procs p).next } }
    refine ⟨m, ?_⟩
    simp [reapLoop, hreap, hspace, setProc, unlinked, Eff.bind_ok hdestroy]

theorem Queue.unlink {l₁ l₂ : List Nat} {q p : Nat} (h : Queue k (l₁ ++ q :: p :: l₂) c)
    (m : Memory) (hcur : k.current ≠ some p) (hpid : (k.procs p).pid ≠ 0) :
    Queue (unlinked k q p m) (l₁ ++ q :: l₂) c ∧
      ((unlinked k q p m).procs c).state = (k.procs c).state := by
  have hstate : ∀ i, i ≠ p → ((unlinked k q p m).procs i).state = (k.procs i).state := by
    intro i hi
    obtain ⟨n, hn⟩ := unlinked_of_ne (k := k) (q := q) (m := m) hi
    rw [hn]
  have hcp : c ≠ p := by
    rintro rfl
    exact hcur h.current
  have h0p : 0 ≠ p := by
    rintro rfl
    exact hpid h.idle.2
  refine ⟨⟨h.toChained.unlink m hpid, h.current, h.toChained.mem_unlink.mpr ⟨h.mem, hcp⟩, ?_, ?_⟩,
    hstate c hcp⟩
  · intro i hi hic
    obtain ⟨hi', hip⟩ := h.toChained.mem_unlink.mp hi
    rw [hstate i hip]
    exact h.others i hi' hic
  · rw [hstate 0 h0p]
    exact h.idleState

/-- The reaping loop ends. -/
theorem Queue.reapLoop_run (fuel : Nat) {l₁ l₂ : List Nat} {q : Nat}
    (h : Queue k (l₁ ++ q :: l₂) c) (hfuel : l₂.length ≤ fuel) :
    ∃ k' l', reapLoop fuel l₂.head? (some q) k = (.ok (), k') ∧ Queue k' l' c ∧
      (k'.procs c).state = (k.procs c).state := by
  induction l₂ generalizing fuel l₁ q k with
  | nil =>
      refine ⟨k, _, ?_, h, rfl⟩
      cases fuel <;> rfl
  | cons p l₂ ih =>
      cases fuel with
      | zero => simp at hfuel
      | succ fuel =>
          have hlen : l₂.length ≤ fuel := by simpa using hfuel
          have hnext : (k.procs p).next = l₂.head? := by
            have hp : Linked (nextOf k.procs) (some p) (p :: l₂) := by
              have := h.chain.tail_of_append
              rwa [this.head_eq] at this
            exact hp.2.head_eq
          rw [List.head?_cons]
          by_cases hreap : (k.procs p).state = .terminated ∧ k.current ≠ some p ∧
              (k.procs p).pid ≠ 0
          · obtain ⟨m, hrun⟩ := reapLoop_remove fuel q p k hreap
            obtain ⟨hqueue, hstate⟩ := h.unlink m hreap.2.1 hreap.2.2
            obtain ⟨k', l', hloop, hqueue', hstate'⟩ := ih fuel hqueue hlen
            refine ⟨k', l', ?_, hqueue', hstate'.trans hstate⟩
            rw [hrun, hnext]
            exact hloop
          · have hrun : reapLoop (fuel + 1) (some p) (some q) k =
                reapLoop fuel (k.procs p).next (some p) k := by
              simp [reapLoop, hreap]
            have hassoc : l₁ ++ q :: p :: l₂ = (l₁ ++ [q]) ++ p :: l₂ := by simp
            rw [hassoc] at h
            obtain ⟨k', l', hloop, hqueue', hstate'⟩ := ih fuel h hlen
            refine ⟨k', l', ?_, hqueue', hstate'⟩
            rw [hrun, hnext]
            exact hloop

/-- Reaping succeeds and keeps the table orderly. -/
theorem Orderly.processReap_run (h : Orderly k l c) :
    ∃ k' l', processReap k = (.ok (), k') ∧ Orderly k' l' c := by
  obtain ⟨hhead, hpid⟩ := h.idle
  obtain ⟨rest, rfl⟩ := h.toChained.eq_cons
  have hlen : rest.length ≤ 15 := by
    have := h.toChained.length_le
    simp only [List.length_cons, processMax] at this
    omega
  have hnext : (k.procs 0).next = rest.head? := h.chain.2.head_eq
  have hskip : processReap k = reapLoop 15 (k.procs 0).next (some 0) k := by
    simp [processReap, hhead, processMax, reapLoop, hpid]
  have hqueue : Queue k ([] ++ 0 :: rest) c := h.toQueue
  obtain ⟨k', l', hloop, hqueue', hstate⟩ := hqueue.reapLoop_run 15 hlen
  refine ⟨k', l', ?_, hqueue', hstate.trans h.running⟩
  rw [hskip, hnext]
  exact hloop

/-! ## Creating -/

theorem Orderly.append {l₁ : List Nat} {q slot : Nat} {img : Proc}
    (h : Orderly k (l₁ ++ [q]) c) (hslot : slot < processMax) (hzero : slot ≠ 0)
    (hfree : (k.procs slot).inUse = false) (huse : img.inUse = true) (hnext : img.next = none)
    (hready : img.state = .ready) : Orderly (appended k q slot img) (l₁ ++ [q, slot]) c := by
  have hslotl : slot ∉ l₁ ++ [q] := by
    intro hcon
    rw [h.members, hfree] at hcon
    exact absurd hcon.2 (by simp)
  have hqs : q ≠ slot := by
    rintro rfl
    exact hslotl (by simp)
  have hstate : ∀ i, i ≠ slot →
      ((appended k q slot img).procs i).state = (k.procs i).state := by
    intro i hi
    obtain ⟨n, hn⟩ := appended_of_ne (k := k) (q := q) (r := img) hi
    rw [hn]
  have hcs : c ≠ slot := fun heq => hslotl (heq ▸ h.mem)
  have hlist : l₁ ++ [q, slot] = l₁ ++ [q] ++ [slot] := by simp
  refine ⟨⟨h.toChained.append hslot hzero hfree huse hnext, h.current, ?_, ?_, ?_⟩, ?_⟩
  · rw [hlist]
    exact List.mem_append_left _ h.mem
  · intro i hi hic
    by_cases his : i = slot
    · rw [his, appended_self hqs, hready]
      exact ProcessState.noConfusion
    · rw [hlist, List.mem_append, List.mem_singleton] at hi
      rw [hstate i his]
      exact h.others i (hi.resolve_right his) hic
  · rw [hstate 0 (Ne.symm hzero)]
    exact h.idleState
  · rw [hstate c hcs]
    exact h.running

/-- A call has returned, and the table is orderly. -/
def Settled {α : Type} (r : Except Stop α) (k : Kernel) : Prop :=
  (∃ l c, Orderly k l c) ∧ r ≠ .error .panic ∧ r ≠ .error .hang

theorem Orderly.settled_status {α : Type} (h : Orderly k l c) (e : Nstatus) :
    Settled (.error (.status e) : Except Stop α) k :=
  ⟨⟨l, c, h⟩, by simp, by simp⟩

theorem Orderly.settled_ok {α : Type} (h : Orderly k l c) (x : α) :
    Settled (.ok x : Except Stop α) k :=
  ⟨⟨l, c, h⟩, by simp, by simp⟩

theorem Orderly.createProc_post (h : Orderly k l c) (img : Proc) :
    Eff.Post (createProc img) k Settled := by
  obtain ⟨k₁, l₁, hreap, h₁⟩ := h.processReap_run
  rcases h₁.toChained.createProc_run h.idle.1 hreap img with
    ⟨-, hrun⟩ | ⟨l₂, q, slot, rfl, hslot, hzero, hfree, hrun⟩
  · exact Eff.post_of_eq hrun (h₁.settled_status _)
  · exact Eff.post_of_eq hrun ((h₁.append hslot hzero hfree rfl rfl rfl).settled_ok _)

/-! ## Ending and sleeping -/

/-- The search for an identifier ends, with a process of the chain that has it. -/
theorem findPid_run {fuel pid : Nat} {p : Option Nat} {l₂ : List Nat}
    (h : Linked (nextOf k.procs) p l₂) (hfuel : l₂.length ≤ fuel) :
    ∃ r, findPid pid fuel p k = (.ok r, k) ∧
      ∀ n, r = some n → n ∈ l₂ ∧ (k.procs n).pid = pid := by
  induction l₂ generalizing fuel p with
  | nil =>
      rw [Linked.nil_iff] at h
      refine ⟨none, ?_, (by intro n hn; cases hn)⟩
      rw [h]
      cases fuel <;> rfl
  | cons x l₂ ih =>
      obtain ⟨rfl, hrest⟩ := h
      cases fuel with
      | zero => simp at hfuel
      | succ fuel =>
          by_cases hfound : (k.procs x).inUse = true ∧ (k.procs x).pid = pid
          · refine ⟨some x, ?_, ?_⟩
            · rw [findPid, Eff.gets_bind_run, if_pos hfound]
              rfl
            · intro n hn
              cases hn
              exact ⟨List.mem_cons_self .., hfound.2⟩
          · have hlen : l₂.length ≤ fuel := by simpa using hfuel
            obtain ⟨r, hrun, hr⟩ := ih hrest hlen
            refine ⟨r, ?_, fun n hn => ⟨List.mem_cons_of_mem _ (hr n hn).1, (hr n hn).2⟩⟩
            rw [findPid, Eff.gets_bind_run, if_neg hfound]
            exact hrun

/-- A change of the state of one process. -/
theorem Queue.setState (h : Queue k l c) {p : Nat} {f : Proc → Proc} (hp0 : p ≠ 0)
    (hf : ∀ r, (f r).next = r.next ∧ (f r).inUse = r.inUse ∧
      (f r).addrspace = r.addrspace ∧ (f r).pid = r.pid)
    (hrun : p ≠ c → (f (k.procs p)).state ≠ .running) :
    Queue { k with procs := Function.update k.procs p (f (k.procs p)) } l c := by
  refine h.congr (shaped_setProc p hf k) rfl ?_ ?_
  · intro i _ hic hcon
    by_cases hip : i = p
    · rw [hip] at hcon hic
      dsimp only at hcon
      rw [Function.update_self] at hcon
      exact absurd hcon (hrun hic)
    · dsimp only at hcon
      rwa [Function.update_of_ne hip] at hcon
  · dsimp only
    rw [Function.update_of_ne (Ne.symm hp0)]

/-- Ending a process never finds the table without one that can run. -/
theorem Orderly.processTerminate_post (h : Orderly k l c) (pid : Nat) :
    Eff.Post (processTerminate pid) k Settled := by
  unfold processTerminate
  split
  next => exact Eff.post_of_eq rfl (h.settled_status _)
  next hpid =>
    refine Eff.post_gets_bind ?_
    obtain ⟨r, hfind, hr⟩ : ∃ r, findPid pid processMax k.processList k = (.ok r, k) ∧
        ∀ n, r = some n → n ∈ l ∧ (k.procs n).pid = pid :=
      findPid_run h.chain h.toChained.length_le
    refine Eff.post_bind_ok hfind ?_
    cases r with
    | none => exact Eff.post_of_eq rfl (h.settled_status _)
    | some p =>
        obtain ⟨hp, hpp⟩ := hr p rfl
        have hp0 : p ≠ 0 := by
          rintro rfl
          rw [h.idle.2] at hpp
          exact hpid hpp.symm
        refine Eff.post_gets_bind ?_
        split
        next => exact Eff.post_of_eq rfl (h.settled_status _)
        next =>
          have hqueue := h.toQueue.setState (f := fun r => { r with state := .terminated }) hp0
            (fun _ => ⟨rfl, rfl, rfl, rfl⟩) (fun _ => ProcessState.noConfusion)
          refine Eff.post_bind_ok rfl (Eff.post_gets_bind ?_)
          split
          next hcur =>
            -- the current process ends itself and another one takes over
            have hpc : c = p := Option.some.inj (h.current.symm.trans hcur)
            obtain ⟨k₂, hrun, ⟨n, hn, horderly⟩ | ⟨hc0, -⟩⟩ := hqueue.schedule_run
            · refine Eff.post_bind_ok hrun (Eff.post_gets_bind ?_)
              rw [if_neg (by rw [horderly.current, Option.some.injEq, ← hpc]; exact hn)]
              exact Eff.post_of_eq rfl (horderly.settled_ok ())
            · exact absurd (hpc.symm.trans hc0) hp0
          next hcur =>
            have hcp : c ≠ p := by
              rintro rfl
              exact hcur h.current
            have horderly : Orderly _ l c := ⟨hqueue, by
              dsimp only
              rw [Function.update_of_ne hcp]
              exact h.running⟩
            obtain ⟨k₂, l₂, hrun, horderly₂⟩ := horderly.processReap_run
            exact Eff.post_of_eq hrun (horderly₂.settled_ok ())

/-- Sleeping hands the processor to another process. -/
theorem Orderly.processSleepTicks_post (h : Orderly k l c) (ticks : Nat) :
    Eff.Post (processSleepTicks ticks) k Settled := by
  unfold processSleepTicks
  refine Eff.post_gets_bind ?_
  dsimp only [id]
  rw [h.current]
  dsimp only
  split
  next => exact Eff.post_of_eq rfl (h.settled_status _)
  next hpid =>
    have hc0 : c ≠ 0 := by
      rintro rfl
      exact hpid h.idle.2
    have hqueue := h.toQueue.setState (p := c) (f := fun r => { r with
      wakeTick := (k.tick + (if ticks = 0 then 1 else ticks)) % 2 ^ 64, state := .blocked }) hc0
      (fun _ => ⟨rfl, rfl, rfl, rfl⟩) (fun hne => absurd rfl hne)
    obtain ⟨k₂, hrun, ⟨n, hn, horderly⟩ | ⟨hzero, -⟩⟩ := hqueue.schedule_run
    · refine Eff.post_bind_ok rfl (Eff.post_bind_ok hrun (Eff.post_gets_bind ?_))
      dsimp only [id]
      rw [if_neg (by rw [horderly.current, Option.some.injEq]; exact fun hcon => hn hcon.1)]
      exact Eff.post_of_eq rfl (horderly.settled_ok ())
    · exact absurd hzero hc0

/-- Exiting stops with a panic of its own when the current identifier is that of the idle
process; otherwise the process ends. -/
theorem Orderly.processExitWithCode_post (h : Orderly k l c) (code : Int) :
    Eff.Post (processExitWithCode code) k (fun r k' =>
      (r = .error .panic ∧ k' = k ∧ (k.procs c).pid = 0) ∨ Settled r k') := by
  unfold processExitWithCode
  refine Eff.post_gets_bind ?_
  dsimp only [id]
  rw [h.current]
  dsimp only
  split
  next hpid => exact Eff.post_of_eq rfl (Or.inl ⟨rfl, rfl, hpid⟩)
  next hpid =>
    have hc0 : c ≠ 0 := by
      rintro rfl
      exact hpid h.idle.2
    have hqueue := h.toQueue.setState (p := c) (f := fun r => { r with exitCode := code }) hc0
      (fun _ => ⟨rfl, rfl, rfl, rfl⟩) (fun hne => absurd rfl hne)
    have horderly : Orderly { k with
        procs := Function.update k.procs c { k.procs c with exitCode := code }
        lastExitCode := code } l c := by
      refine ⟨hqueue.congr ⟨rfl, rfl, fun _ => rfl, fun _ => rfl, fun _ => rfl, fun _ => rfl⟩ rfl
        (fun _ _ _ hrun => hrun) rfl, ?_⟩
      dsimp only
      rw [Function.update_self]
      exact h.running
    refine Eff.post_bind_ok rfl (Eff.post_bind_ok rfl ?_)
    exact Eff.post_mono (horderly.processTerminate_post _) (fun _ _ hs => Or.inr hs)

/-! ## Runs -/

/-- The calls that reach the process table.  A switch names a slot of the table. -/
inductive Call
  | create (entryPoint : Nat)
  | createUser (pml4 entry stackTop heapStart : Nat)
  | switch (p : Fin processMax)
  | schedule
  | sleep (ticks : Nat)
  | tick
  | terminate (pid : Nat)
  | exit (code : Int)
  | reap

/-- What a call does. -/
def Call.exec : Call → KernelM Unit
  | .create entryPoint => processCreate entryPoint
  | .createUser pml4 entry stackTop heapStart => do
      let _ ← processCreateUser pml4 entry stackTop heapStart
      pure ()
  | .switch p => processSwitch p
  | .schedule => Process.schedule
  | .sleep ticks => processSleepTicks ticks
  | .tick => timerTick
  | .terminate pid => processTerminate pid
  | .exit code => processExitWithCode code
  | .reap => processReap

/-- The state after a run of calls. -/
def Call.runs (k : Kernel) (calls : List Call) : Kernel :=
  calls.foldl (fun k call => (call.exec k).2) k

/-- An exit of a process that has the identifier of the idle one. -/
def Call.ExitsIdle (k : Kernel) (call : Call) : Prop :=
  ∃ code c, call = .exit code ∧ k.current = some c ∧ (k.procs c).pid = 0

theorem Settled.drop_post {α : Type} {m : KernelM α} (h : Eff.Post m k Settled) :
    Eff.Post (m >>= fun _ => pure () : KernelM Unit) k Settled := by
  refine Eff.post_bind h ?_ ?_
  · rintro e k' ⟨horderly, hpanic, hhang⟩
    exact ⟨horderly, fun hcon => hpanic (congrArg Except.error (Except.error.inj hcon)),
      fun hcon => hhang (congrArg Except.error (Except.error.inj hcon))⟩
  · rintro x k' ⟨⟨l, c, horderly⟩, -⟩
    exact Eff.post_of_eq rfl (horderly.settled_ok ())

/-- Every call returns and leaves the table orderly; only the exit of an idle process
panics. -/
theorem Orderly.step (h : Orderly k l c) (call : Call) :
    (∃ l' c', Orderly (call.exec k).2 l' c') ∧ (call.exec k).1 ≠ .error .hang ∧
      ((call.exec k).1 = .error .panic → call.ExitsIdle k) := by
  have hsettled : Settled (call.exec k).1 (call.exec k).2 →
      (∃ l' c', Orderly (call.exec k).2 l' c') ∧ (call.exec k).1 ≠ .error .hang ∧
        ((call.exec k).1 = .error .panic → call.ExitsIdle k) :=
    fun hs => ⟨hs.1, hs.2.2, fun hcon => absurd hcon hs.2.1⟩
  cases call with
  | create entryPoint =>
      refine hsettled ?_
      change Eff.Post (processCreate entryPoint) k Settled
      unfold processCreate
      split
      next => exact Eff.post_of_eq rfl (h.settled_status _)
      next => exact Settled.drop_post (h.createProc_post _)
  | createUser pml4 entry stackTop heapStart =>
      refine hsettled (Settled.drop_post (m := processCreateUser pml4 entry stackTop heapStart) ?_)
      unfold processCreateUser
      split
      next => exact Eff.post_of_eq rfl (h.settled_status _)
      next => exact h.createProc_post _
  | switch p =>
      refine hsettled ?_
      change Eff.Post (processSwitch p) k Settled
      by_cases hbad : (k.procs p).inUse = false ∨ (k.procs p).state ≠ .ready
      · refine Eff.post_of_eq (r := .error (.status .NinvalidArg)) ?_ (h.settled_status _)
        simp [processSwitch, hbad, failWith]
      · rw [not_or, not_not, Bool.not_eq_false] at hbad
        have hp : p.val ∈ l := (h.members p).mpr ⟨p.isLt, hbad.1⟩
        have hpc : p.val ≠ c := by
          intro heq
          have := h.running
          rw [← heq, hbad.2] at this
          cases this
        obtain ⟨k', hrun, horderly⟩ := h.toQueue.processSwitch_run hp hpc hbad.2
        exact Eff.post_of_eq hrun (horderly.settled_ok ())
  | schedule =>
      obtain ⟨k', c', hrun, horderly⟩ := h.schedule_run
      exact hsettled (Eff.post_of_eq hrun (horderly.settled_ok ()))
  | sleep ticks => exact hsettled (h.processSleepTicks_post ticks)
  | tick =>
      have hqueue : Queue { k with tick := (k.tick + 1) % 2 ^ 64 } l c :=
        h.toQueue.congr ⟨rfl, rfl, fun _ => rfl, fun _ => rfl, fun _ => rfl, fun _ => rfl⟩ rfl
          (fun _ _ _ hrun => hrun) rfl
      have horderly : Orderly { k with tick := (k.tick + 1) % 2 ^ 64 } l c := ⟨hqueue, h.running⟩
      exact hsettled (horderly.settled_ok ())
  | terminate pid => exact hsettled (h.processTerminate_post pid)
  | exit code =>
      rcases h.processExitWithCode_post code with ⟨hpanic, hsame, hpid⟩ | hs
      · refine ⟨⟨l, c, ?_⟩, ?_, fun _ => ⟨code, c, rfl, h.current, hpid⟩⟩
        · change Orderly (processExitWithCode code k).2 l c
          rw [hsame]
          exact h
        · change (processExitWithCode code k).1 ≠ .error .hang
          rw [hpanic]
          simp
      · exact hsettled hs
  | reap =>
      obtain ⟨k', l', hrun, horderly⟩ := h.processReap_run
      exact hsettled (Eff.post_of_eq hrun (horderly.settled_ok ()))

theorem Orderly.runs (h : Orderly k l c) (calls : List Call) :
    ∃ l' c', Orderly (Call.runs k calls) l' c' := by
  induction calls generalizing k l c with
  | nil => exact ⟨l, c, h⟩
  | cons call calls ih =>
      obtain ⟨⟨l', c', h'⟩, -⟩ := h.step call
      exact ih h'

/-- The table after {lit}`process_init`. -/
theorem processInit_orderly (hnone : k.processList = none) :
    Orderly (processInit k).2 [0] 0 := by
  have hk : (processInit k).2 = { k with
      procs := Function.update (fun _ => Proc.zero) 0
        { Proc.zero with state := .running, inUse := true }
      processList := some 0
      current := some 0 } := by
    simp [processInit, hnone]
  rw [hk]
  refine ⟨⟨⟨?_, ?_, ?_⟩, rfl, List.mem_cons_self .., ?_, ?_⟩, ?_⟩
  · simp [Linked, nextOf, Proc.zero]
  · intro i
    by_cases hi : i = 0
    · subst hi
      simp [processMax]
    · simp [hi, Proc.zero]
  · simp [Proc.zero]
  · intro i hi hne
    exact absurd (List.mem_singleton.mp hi) hne
  · simp
  · simp

/-- The process table in every run after {lit}`process_init`.  The chain is finite and holds
the slots in use, each once; the current process is on it and is the only one running; the
idle process is ready unless it is current; the policy ends and finds a process for every
other current process, whatever state that is in; and no call hangs or panics for want of a
process. -/
theorem scheduler_invariant {k₀ : Kernel} (hnone : k₀.processList = none) (calls : List Call)
    (hk : k = Call.runs (processInit k₀).2 calls) :
    (∃ l, Linked (nextOf k.procs) k.processList l ∧ l.Nodup ∧
      ∀ i, i ∈ l ↔ i < processMax ∧ (k.procs i).inUse = true) ∧
    (∃ c < processMax, k.current = some c ∧ (k.procs c).inUse = true ∧
      ∀ i < processMax, (k.procs i).inUse = true → ((k.procs i).state = .running ↔ i = c)) ∧
    ((k.procs 0).inUse = true ∧ (k.procs 0).pid = 0 ∧ (k.procs 0).state ≠ .terminated ∧
      (k.current ≠ some 0 → (k.procs 0).state = .ready)) ∧
    (∀ c head, k.current = some c → k.processList = some head →
      (∃ r k', schedPickNext c head k = (.ok r, k') ∧ (c ≠ 0 → r ≠ none)) ∧
      (c ≠ 0 → ∀ state wakeTick, ∃ n k', schedPickNext c head { k with
        procs := Function.update k.procs c
          { k.procs c with state := state, wakeTick := wakeTick } } = (.ok (some n), k'))) ∧
    (∀ call : Call, (call.exec k).1 ≠ .error .hang ∧
      ((call.exec k).1 = .error .panic → call.ExitsIdle k)) := by
  obtain ⟨l, c, h⟩ := (processInit_orderly hnone).runs calls
  rw [← hk] at h
  have hmem : ∀ i, i < processMax → (k.procs i).inUse = true → i ∈ l :=
    fun i hi huse => (h.members i).mpr ⟨hi, huse⟩
  have hidle : 0 ∈ l := by
    obtain ⟨rest, hl⟩ := h.toChained.eq_cons
    rw [hl]
    exact List.mem_cons_self ..
  refine ⟨⟨l, h.chain, h.chain.nodup, h.members⟩, ?_, ?_, ?_, ?_⟩
  · obtain ⟨hc, huse⟩ := (h.members c).mp h.mem
    refine ⟨c, hc, h.current, huse, fun i hi hiuse => ⟨fun hrun => ?_, ?_⟩⟩
    · by_contra hne
      exact h.others i (hmem i hi hiuse) hne hrun
    · rintro rfl
      exact h.running
  · refine ⟨((h.members 0).mp hidle).2, h.idle.2, ?_, fun hcur => ?_⟩
    · rw [h.idleState]
      split
      next => exact ProcessState.noConfusion
      next => exact ProcessState.noConfusion
    · rw [h.idleState, if_neg]
      rintro rfl
      exact hcur h.current
  · intro c' head hcur hhead
    obtain rfl : c' = c := Option.some.inj (hcur.symm.trans h.current)
    obtain rfl : head = 0 := Option.some.inj (hhead.symm.trans h.idle.1)
    refine ⟨?_, fun hc0 state wakeTick => ?_⟩
    · obtain ⟨r, k', hrun, -, -, hnone⟩ := h.toQueue.schedPickNext_run
      exact ⟨r, k', hrun, hnone⟩
    · have hqueue := h.toQueue.setState (p := c') (f := fun r => { r with
        state := state, wakeTick := wakeTick }) hc0 (fun _ => ⟨rfl, rfl, rfl, rfl⟩)
        (fun hne => absurd rfl hne)
      obtain ⟨r, k', hrun, -, -, hnone⟩ := hqueue.schedPickNext_run
      obtain ⟨n, rfl⟩ := Option.ne_none_iff_exists'.mp (hnone hc0)
      exact ⟨n, k', hrun⟩
  · intro call
    obtain ⟨-, hhang, hpanic⟩ := h.step call
    exact ⟨hhang, hpanic⟩

/-- A machine without processes. -/
def bareKernel : Kernel where
  memory := { mem := fun _ _ => 0, freeHead := 0, freeCount := 0, nxSupported := true, kernelPml4 := 0 }
  procs := fun _ => Proc.zero
  processList := none
  current := none
  nextPid := 1
  tick := 0
  lastExitCode := 0

/-- Two threads start; the first sleeps, the second takes over. -/
def smallCalls : List Call :=
  [.create 1, .create 1, .schedule, .sleep 3, .tick]

theorem scheduler_invariant_small :
    (Call.runs (processInit bareKernel).2 smallCalls).current = some 2 ∧
      ((Call.runs (processInit bareKernel).2 smallCalls).procs 0).state = .ready := by
  have hcurrent : (Call.runs (processInit bareKernel).2 smallCalls).current = some 2 := by
    decide +kernel
  have hnone : bareKernel.processList = none := rfl
  have hinv := scheduler_invariant hnone smallCalls rfl
  refine ⟨hcurrent, hinv.2.2.1.2.2.2 ?_⟩
  rw [hcurrent]
  decide

end Process
end Nyxis
