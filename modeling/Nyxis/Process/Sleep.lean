import Nyxis.Process.Fairness

/-!
# Sleeping

A process that sleeps is blocked until its tick has come and a pass of the scheduler, run by
whichever process is current then, looks at its slot.  That pass takes it.  In between neither the
other calls nor direct switches touch it.

Main results:

- Theorem {lit}`Orderly.asleep_step`: a call leaves a sleeping process asleep unless its pass
  reaches it in time.
- Theorem {lit}`Orderly.woken_step`: a pass that reaches it in time makes it ready.
- Theorem {lit}`sleep_never_early`: both over every run.
-/

namespace Nyxis
namespace Process

variable {k k' k₁ : Kernel} {l : List Nat} {c i due : Nat}

/-! ## The system call -/

/-- {lit}`NX_SLEEP_MAX_MS`. -/
def nxSleepMaxMs : Nat := 3600000

/-- The ticks that {lit}`sys_sleep` computes from milliseconds, rounded up. -/
def sleepTicks (hz ms : Nat) : Nat :=
  (ms * hz + 999) % 2 ^ 64 / 1000

/-- {lit}`sys_sleep`. -/
def sysSleep (hz ms : Nat) : KernelM Unit :=
  if ms > nxSleepMaxMs then failWith .NinvalidArg
  else if hz = 0 then failWith .Nunsupported
  else processSleepTicks (sleepTicks hz ms)

/-- The limit on milliseconds keeps the sum far from the end of a 64-bit counter. -/
theorem sleepTicks_eq {hz ms : Nat} (hhz : hz < 2 ^ 32) (hms : ms ≤ nxSleepMaxMs) :
    sleepTicks hz ms = (ms * hz + 999) / 1000 := by
  have hprod : ms * hz ≤ 3600000 * 2 ^ 32 := Nat.mul_le_mul hms hhz.le
  unfold sleepTicks
  rw [Nat.mod_eq_of_lt (by omega)]

/-- {lit}`sys_sleep` never asks for more ticks than for an hour. -/
theorem sleepTicks_mono {hz ms : Nat} (hhz : hz < 2 ^ 32) (hms : ms ≤ nxSleepMaxMs) :
    sleepTicks hz ms ≤ sleepTicks hz nxSleepMaxMs := by
  rw [sleepTicks_eq hhz hms, sleepTicks_eq hhz le_rfl]
  exact Nat.div_le_div_right (Nat.add_le_add_right (Nat.mul_le_mul_right hz hms) 999)

theorem sleepTicks_lt {hz n : Nat} (hhz : hz < 2 ^ 32) (hn : n ≤ sleepTicks hz nxSleepMaxMs) :
    n < 2 ^ 62 := by
  have hprod : nxSleepMaxMs * hz ≤ 3600000 * 2 ^ 32 := Nat.mul_le_mul_left _ hhz.le
  rw [sleepTicks_eq hhz le_rfl] at hn
  omega

/-! ## One call -/

/-- A process is asleep until a tick. -/
structure Asleep (k : Kernel) (i due : Nat) : Prop where
  inUse : (k.procs i).inUse = true
  blocked : (k.procs i).state = .blocked
  wakeTick : (k.procs i).wakeTick = due

/-- The slots that the pass of a call looks at. -/
def Call.visits (k : Kernel) (call : Call) : List Nat :=
  match call.passState k with
  | some k₁ =>
      match k₁.current, k₁.processList with
      | some c, some head =>
          pickVisits c head processMax ((k₁.procs c).next.getD head) k₁
      | _, _ => []
  | none => []

/-- The pass of a call reaches a process, and its tick has come. -/
def Call.Reaches (k : Kernel) (call : Call) (i due : Nat) : Prop :=
  due ≤ k.tick ∧ i ∈ call.visits k

/-- The policy makes a process ready in the pass of a call, and takes it. -/
def Call.Wakes (k : Kernel) (call : Call) (i : Nat) : Prop :=
  ∃ k₁ k₂ c head, call.passState k = some k₁ ∧ k₁.current = some c ∧ k₁.processList = some head ∧
    schedPickNext c head k₁ = (.ok (some i), k₂) ∧ (k₂.procs i).state = .ready ∧
    (k₂.procs i).wakeTick = 0

theorem Queue.visits_eq (h : Queue k₁ l c) {call : Call} (hpass : call.passState k = some k₁) :
    call.visits k = pickVisits c 0 processMax ((k₁.procs c).next.getD 0) k₁ := by
  unfold Call.visits
  rw [hpass]
  dsimp only
  rw [h.current, h.idle.1]

/-- A sleeping process is eligible once its tick has come. -/
theorem Asleep.eligible_iff (h : Asleep k i due) (hdue : due ≠ 0) :
    Eligible k i ↔ due ≤ k.tick := by
  unfold Eligible wake
  constructor
  · rintro ⟨-, hready⟩
    split at hready
    next hcond => exact h.wakeTick ▸ hcond.2.2.2
    next =>
      rw [h.blocked] at hready
      cases hready
  · intro htick
    refine ⟨h.inUse, ?_⟩
    rw [if_pos ⟨h.inUse, h.blocked, h.wakeTick.symm ▸ hdue, h.wakeTick.symm ▸ htick⟩]

theorem Asleep.congr (h : Asleep k i due) (hsame : k'.procs i = k.procs i) : Asleep k' i due := by
  refine ⟨?_, ?_, ?_⟩
  · rw [hsame]
    exact h.inUse
  · rw [hsame]
    exact h.blocked
  · rw [hsame]
    exact h.wakeTick

theorem Asleep.ne_current (hs : Asleep k i due) (h : Orderly k l c) : i ≠ c := by
  rintro rfl
  have := h.running
  rw [hs.blocked] at this
  cases this

/-- A pass takes a sleeping process exactly when it reaches it in time. -/
theorem RunsPass.picked_iff (h : RunsPass k k' k₁ l c) (hs : Asleep k i due) (hdue : due ≠ 0)
    (hic : i ≠ c) {call : Call} (hpass : call.passState k = some k₁) :
    picked k₁ l c = some i ↔ call.Reaches k i due := by
  have hs₁ : Asleep k₁ i due := hs.congr (h.start.others i hic)
  obtain ⟨hround, hlen, huse⟩ := h.queue.round_rotation
  unfold Call.Reaches
  rw [h.queue.visits_eq hpass, ← h.start.tick]
  constructor
  · intro hpicked
    refine ⟨(hs₁.eligible_iff hdue).mp (h.queue.picked_spec hpicked).2.2, ?_⟩
    exact mem_pickVisits_of_find huse hround hlen hpicked
  · rintro ⟨htick, hvisit⟩
    exact pickVisits_eligible huse hround hlen hvisit ((hs₁.eligible_iff hdue).mpr htick)

/-- A call leaves a sleeping process asleep unless its pass reaches it in time. -/
theorem Orderly.asleep_step (h : Orderly k l c) (hs : Asleep k i due) (hdue : due ≠ 0)
    (hi : i < processMax) {call : Call} (hlive : Alive (call.exec k).2 i)
    (hnot : ¬ call.Reaches k i due) : Asleep (call.exec k).2 i due := by
  have hic := hs.ne_current h
  rcases h.exec_cases call with ⟨k₁, hpass, hruns⟩ | ⟨s, -, hswitch⟩ | ⟨-, htick⟩ |
    ⟨-, l', -, hreshaped⟩
  · have hs₁ : Asleep k₁ i due := hs.congr (hruns.start.others i hic)
    rw [hruns.result]
    unfold passed
    cases hp : picked k₁ l c with
    | none => exact hs₁
    | some p =>
        have hip : i ≠ p := by
          rintro rfl
          exact hnot ((hruns.picked_iff hs hdue hic hpass).mp hp)
        refine hs₁.congr ?_
        dsimp only
        rw [switchTo_procs_of_ne hip hic, Kernel.woken_procs_of_ne _ hip]
  · cases hswitch with
    | same hsame => rwa [hsame]
    | moved p hp hpc hready _ hresult =>
        have hip : i ≠ p := by
          rintro rfl
          rw [hs.blocked] at hready
          cases hready
        rw [hresult]
        exact hs.congr (switchTo_procs_of_ne hip hic)
  · rw [htick]
    exact hs.congr rfl
  · have hil : i ∈ l := (h.members i).mpr ⟨hi, hs.inUse⟩
    obtain ⟨hstate, hwake⟩ := hreshaped.kept i hil (by rw [hs.blocked]; nofun) hlive.1
    exact ⟨hlive.1, hstate.trans hs.blocked, hwake.trans hs.wakeTick⟩

/-- A pass that reaches a sleeping process in time makes it ready. -/
theorem Orderly.woken_step (h : Orderly k l c) (hs : Asleep k i due) (hdue : due ≠ 0)
    {call : Call} (hreach : call.Reaches k i due) : call.Wakes k i := by
  have hic := hs.ne_current h
  rcases h.exec_cases call with ⟨k₁, hpass, hruns⟩ | ⟨s, rfl, -⟩ | ⟨rfl, -⟩ | ⟨hnone, -⟩
  · have hpicked := (hruns.picked_iff hs hdue hic hpass).mpr hreach
    have hs₁ : Asleep k₁ i due := hs.congr (hruns.start.others i hic)
    have hrun := hruns.queue.schedPickNext_exact
    rw [hpicked] at hrun
    have hready : wake k₁.tick (k₁.procs i) = { k₁.procs i with state := .ready, wakeTick := 0 } := by
      unfold wake
      rw [if_pos]
      refine ⟨hs₁.inUse, hs₁.blocked, hs₁.wakeTick.symm ▸ hdue, ?_⟩
      rw [hs₁.wakeTick, hruns.start.tick]
      exact hreach.1
    refine ⟨k₁, _, c, 0, hpass, hruns.queue.current, hruns.queue.idle.1, hrun, ?_, ?_⟩
    · change ((k₁.woken i).procs i).state = .ready
      rw [Kernel.woken_procs_self, hready]
    · change ((k₁.woken i).procs i).wakeTick = 0
      rw [Kernel.woken_procs_self, hready]
  · cases hreach.2
  · cases hreach.2
  · have hempty : call.visits k = [] := by
      rw [Call.visits, hnone]
    rw [Call.Reaches, hempty] at hreach
    cases hreach.2

theorem passed_tick (k : Kernel) (l : List Nat) (c : Nat) : (passed k l c).tick = k.tick := by
  unfold passed
  split
  next => rfl
  next => rfl

/-- Only the timer changes the tick. -/
theorem Orderly.tick_step (h : Orderly k l c) (call : Call) :
    (call.exec k).2.tick = k.tick ∨ (call.exec k).2.tick = (k.tick + 1) % 2 ^ 64 := by
  rcases h.exec_cases call with ⟨k₁, -, hruns⟩ | ⟨s, -, hswitch⟩ | ⟨-, htick⟩ |
    ⟨-, l', -, hreshaped⟩
  · left
    rw [hruns.result, passed_tick]
    exact hruns.start.tick
  · left
    cases hswitch with
    | same hsame => rw [hsame]
    | moved p hp hpc hready horderly hresult =>
        rw [hresult]
        rfl
  · right
    rw [htick]
  · exact Or.inl hreshaped.tick

/-! ## Runs -/

/-- No pass of a run reaches a process in time. -/
def Unreached (k : Kernel) (calls : List Call) (i due : Nat) : Prop :=
  ∀ done call, done ++ [call] <+: calls → ¬ call.Reaches (Call.runs k done) i due

theorem Unreached.head {call : Call} {calls : List Call} (h : Unreached k (call :: calls) i due) :
    ¬ call.Reaches k i due :=
  h [] call (List.prefix_cons_iff.mpr (Or.inr ⟨[], rfl, List.nil_prefix⟩))

theorem Unreached.tail {call : Call} {calls : List Call} (h : Unreached k (call :: calls) i due) :
    Unreached (call.exec k).2 calls i due :=
  fun done call' hdone => h (call :: done) call'
    (List.prefix_cons_iff.mpr (Or.inr ⟨done ++ [call'], rfl, hdone⟩))

/-- A process stays asleep until a pass reaches it in time. -/
theorem Orderly.asleep_runs (h : Orderly k l c) (hs : Asleep k i due) (hdue : due ≠ 0)
    (hi : i < processMax) {calls : List Call} (hlive : Throughout Alive k calls i)
    (hnot : Unreached k calls i due) : Asleep (Call.runs k calls) i due := by
  induction calls generalizing k l c with
  | nil => exact hs
  | cons call calls ih =>
      obtain ⟨⟨l', c', h'⟩, -⟩ := h.step call
      exact ih h' (h.asleep_step hs hdue hi hlive.tail.head hnot.head) hlive.tail hnot.tail

/-- While the counter is small, the tick never goes back. -/
theorem Orderly.tick_runs (h : Orderly k l c) {calls : List Call}
    (hsmall : ∀ done, done <+: calls → (Call.runs k done).tick < 2 ^ 63) :
    k.tick ≤ (Call.runs k calls).tick := by
  induction calls generalizing k l c with
  | nil => exact le_rfl
  | cons call calls ih =>
      obtain ⟨⟨l', c', h'⟩, -⟩ := h.step call
      have hstart : k.tick < 2 ^ 63 := hsmall [] List.nil_prefix
      have hstep : k.tick ≤ (call.exec k).2.tick := by
        rcases h.tick_step call with heq | heq
        · rw [heq]
        · rw [heq, Nat.mod_eq_of_lt (by omega)]
          exact Nat.le_succ _
      refine hstep.trans (ih h' fun done hdone => ?_)
      exact hsmall (call :: done) (List.prefix_cons_iff.mpr (Or.inr ⟨done, rfl, hdone⟩))

/-- Before its tick no pass can reach a process in time. -/
theorem Orderly.unreached_of_early (h : Orderly k l c) {calls : List Call}
    (hsmall : ∀ done, done <+: calls → (Call.runs k done).tick < 2 ^ 63)
    (hearly : (Call.runs k calls).tick < due) : Unreached k calls i due := by
  rintro done call ⟨rest, hrest⟩ ⟨hreach, -⟩
  obtain ⟨l', c', h'⟩ := h.runs done
  have hcalls : calls = done ++ (call :: rest) := by
    rw [← hrest]
    simp
  have hmono : (Call.runs k done).tick ≤ (Call.runs (Call.runs k done) (call :: rest)).tick := by
    refine h'.tick_runs fun more hmore => ?_
    rw [← Call.runs_append]
    refine hsmall (done ++ more) ?_
    rw [hcalls]
    exact (List.prefix_append_right_inj done).mpr hmore
  rw [hcalls, Call.runs_append] at hearly
  omega

/-- Going to sleep hands over to another process and leaves the caller asleep. -/
theorem Orderly.sleep_asleep (h : Orderly k l c) (hpid : (k.procs c).pid ≠ 0) {n : Nat}
    (hsum : k.tick + max n 1 < 2 ^ 64) :
    ((Call.sleep n).exec k).1 = .ok () ∧ ((Call.sleep n).exec k).2.current ≠ some c ∧
      ((Call.sleep n).exec k).2.tick = k.tick ∧
      Asleep ((Call.sleep n).exec k).2 c (k.tick + max n 1) := by
  obtain ⟨hqueue, hrun⟩ := h.processSleepTicks_pass hpid n
  have hexec : (Call.sleep n).exec k = (.ok (), passed (sleeping k c n) l c) := hrun
  obtain ⟨p, hp⟩ := Option.ne_none_iff_exists'.mp (hqueue.picked_ne_none (h.current_pid hpid))
  have hpc := (hqueue.picked_spec hp).2.1
  have hticks : (if n = 0 then 1 else n) = max n 1 := by
    split
    next hn => rw [hn]; rfl
    next hn => omega
  have hself : (sleeping k c n).procs c =
      { k.procs c with wakeTick := k.tick + max n 1, state := .blocked } := by
    unfold sleeping
    dsimp only
    rw [Function.update_self, hticks, Nat.mod_eq_of_lt hsum]
  rw [hexec]
  refine ⟨rfl, ?_, by rw [passed_tick]; rfl, ?_⟩
  · dsimp only
    rw [(hqueue.passed_some hp).current]
    exact fun hcon => hpc (Option.some.inj hcon)
  · have hasleep : Asleep (sleeping k c n) c (k.tick + max n 1) := by
      refine ⟨?_, ?_, ?_⟩
      · rw [hself]
        exact ((h.members c).mp h.mem).2
      · rw [hself]
      · rw [hself]
    refine hasleep.congr ?_
    have hwoken : ((sleeping k c n).woken p).procs c = (sleeping k c n).procs c :=
      Kernel.woken_procs_of_ne _ (Ne.symm hpc)
    dsimp only
    rw [passed, hp]
    dsimp only
    have hblocked : (((sleeping k c n).woken p).procs c).state ≠ .running := by
      rw [hwoken, hself]
      intro hcon
      cases hcon
    rw [switchTo_procs_old hpc hblocked, hwoken]

/-- In a run after {lit}`process_init`, the current process goes to sleep for a number of ticks
within the limit of {lit}`sys_sleep`, and does not end in the calls that follow.  The call hands
the processor over.  Before the tick {lit}`t + max n 1` the process is not running.  Until a pass
reaches it in time it is blocked, with that tick as its wake tick; the first pass that reaches it
in time makes it ready. -/
theorem sleep_never_early {k₀ : Kernel} (hnone : k₀.processList = none) (before calls : List Call)
    {hz n : Nat} (hhz : hz < 2 ^ 32) (hn : n ≤ sleepTicks hz nxSleepMaxMs)
    (hk : k = Call.runs (processInit k₀).2 before) (hcur : k.current = some c)
    (hpid : (k.procs c).pid ≠ 0) (hk₁ : k₁ = ((Call.sleep n).exec k).2)
    (hsmall : ∀ done, done <+: calls → (Call.runs k₁ done).tick < 2 ^ 63)
    (hlive : Throughout Alive k₁ calls c) :
    ((Call.sleep n).exec k).1 = .ok () ∧ k₁.current ≠ some c ∧
    (∀ done, done <+: calls → (Call.runs k₁ done).tick < k.tick + max n 1 →
      ((Call.runs k₁ done).procs c).state ≠ .running) ∧
    (∀ done, done <+: calls → Unreached k₁ done c (k.tick + max n 1) →
      ((Call.runs k₁ done).procs c).state = .blocked ∧
        ((Call.runs k₁ done).procs c).wakeTick = k.tick + max n 1 ∧
        ((Call.runs k₁ done).procs c).wakeTick ≠ 0) ∧
    (∀ done call, done ++ [call] <+: calls → Unreached k₁ done c (k.tick + max n 1) →
      call.Reaches (Call.runs k₁ done) c (k.tick + max n 1) → call.Wakes (Call.runs k₁ done) c) := by
  obtain ⟨l, c', h⟩ := (processInit_orderly hnone).runs before
  rw [← hk] at h
  obtain rfl : c' = c := Option.some.inj (h.current.symm.trans hcur)
  have hc : c' < processMax := ((h.members c').mp h.mem).1
  have hnlt := sleepTicks_lt hhz hn
  have htick₁ : k₁.tick < 2 ^ 63 := hsmall [] List.nil_prefix
  have htick : k.tick < 2 ^ 63 := by
    obtain ⟨hqueue, hrun⟩ := h.processSleepTicks_pass hpid n
    have hexec : (Call.sleep n).exec k = (.ok (), passed (sleeping k c' n) l c') := hrun
    rw [hk₁, hexec, passed_tick] at htick₁
    exact htick₁
  obtain ⟨hok, haway, -, hasleep⟩ := h.sleep_asleep hpid (n := n) (by omega)
  rw [← hk₁] at haway hasleep
  obtain ⟨⟨l₁, c₁, h₁⟩, -⟩ := h.step (.sleep n)
  rw [← hk₁] at h₁
  have hdue : k.tick + max n 1 ≠ 0 := by omega
  have hstay : ∀ done, done <+: calls → Unreached k₁ done c' (k.tick + max n 1) →
      Asleep (Call.runs k₁ done) c' (k.tick + max n 1) :=
    fun done hdone hnot => h₁.asleep_runs hasleep hdue hc
      (fun more hmore => hlive more (hmore.trans hdone)) hnot
  refine ⟨hok, haway, fun done hdone hearly => ?_, fun done hdone hnot => ?_,
    fun done call hdone hnot hreach => ?_⟩
  · have hnot := h₁.unreached_of_early (i := c')
      (fun more hmore => hsmall more (hmore.trans hdone)) hearly
    rw [(hstay done hdone hnot).blocked]
    nofun
  · have hs := hstay done hdone hnot
    exact ⟨hs.blocked, hs.wakeTick, hs.wakeTick.symm ▸ hdue⟩
  · obtain ⟨l₂, c₂, h₂⟩ := h₁.runs done
    exact h₂.woken_step (hstay done ((List.prefix_append done [call]).trans hdone) hnot) hdue hreach

/-- A thread sleeps for no time at all; after one tick the next pass takes it. -/
theorem sleep_never_early_small :
    ((Call.runs (processInit bareKernel).2 [.create 1, .schedule, .sleep 0]).procs 1).state ≠
        .running ∧
      Call.Wakes (Call.runs (processInit bareKernel).2 [.create 1, .schedule, .sleep 0, .tick])
        .schedule 1 := by
  have hnone : bareKernel.processList = none := rfl
  have hsmall : ∀ done, done <+: [Call.tick, .schedule] →
      (Call.runs ((Call.sleep 0).exec (Call.runs (processInit bareKernel).2
        [.create 1, .schedule])).2 done).tick < 2 ^ 63 ∧
      Alive (Call.runs ((Call.sleep 0).exec (Call.runs (processInit bareKernel).2
        [.create 1, .schedule])).2 done) 1 := by
    intro done hdone
    rcases List.prefix_cons_iff.mp hdone with rfl | ⟨done', rfl, hdone'⟩
    · exact ⟨by decide +kernel, by decide +kernel, by decide +kernel⟩
    rcases List.prefix_cons_iff.mp hdone' with rfl | ⟨done'', rfl, hdone''⟩
    · exact ⟨by decide +kernel, by decide +kernel, by decide +kernel⟩
    rw [List.prefix_nil.mp hdone'']
    exact ⟨by decide +kernel, by decide +kernel, by decide +kernel⟩
  have hhz : 100 < 2 ^ 32 := by decide
  have hn : 0 ≤ sleepTicks 100 nxSleepMaxMs := Nat.zero_le _
  obtain ⟨-, -, hearly, -, hwakes⟩ := sleep_never_early hnone [.create 1, .schedule]
    [.tick, .schedule] hhz hn rfl (c := 1)
    (by decide +kernel) (by decide +kernel) rfl (fun done hdone => (hsmall done hdone).1)
    (fun done hdone => (hsmall done hdone).2)
  refine ⟨hearly [] List.nil_prefix (by decide +kernel), hwakes [.tick] .schedule
    (List.prefix_refl _) ?_ ⟨by decide +kernel, by decide +kernel⟩⟩
  rintro done call hdone ⟨-, hvisit⟩
  obtain ⟨rfl, rfl⟩ : done = [] ∧ call = .tick := by
    have hlen := hdone.length_le
    simp only [List.length_append, List.length_cons, List.length_nil] at hlen
    obtain rfl : done = [] := List.eq_nil_of_length_eq_zero (by omega)
    rcases List.prefix_cons_iff.mp hdone with hcon | ⟨rest, hrest, -⟩
    · cases hcon
    · exact ⟨rfl, (List.cons.inj hrest).1⟩
  cases hvisit

end Process
end Nyxis
