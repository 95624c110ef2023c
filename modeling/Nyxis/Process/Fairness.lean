import Nyxis.Process.Passes

/-!
# Round-robin fairness

Between two passes that take the same process, every other process that was ready all the time
has been taken.  Going round the chain from the current process, the process that was taken first
never comes before one that waits, whatever joins or leaves the chain in the meantime.

Main results:

- Theorem {lit}`Orderly.waiting_step`: one call keeps the waiting process in front.
- Theorem {lit}`round_robin_fair`: the same over every run.
-/

namespace Nyxis
namespace Process

variable {k k' : Kernel} {l : List Nat} {c p q : Nat}

/-- A process is on the chain and ready. -/
def Ready (k : Kernel) (i : Nat) : Prop :=
  (k.procs i).inUse = true ∧ (k.procs i).state = .ready

/-- A process has not ended.  A slot in which a process ended may hold another one later. -/
def Alive (k : Kernel) (i : Nat) : Prop :=
  (k.procs i).inUse = true ∧ (k.procs i).state ≠ .terminated

/-- A property of a process holds in every state of a run. -/
def Throughout (P : Kernel → Nat → Prop) (k : Kernel) (calls : List Call) (i : Nat) : Prop :=
  ∀ done, done <+: calls → P (Call.runs k done) i

theorem Throughout.head {P : Kernel → Nat → Prop} {calls : List Call} {i : Nat}
    (h : Throughout P k calls i) : P k i :=
  h [] List.nil_prefix

theorem Throughout.tail {P : Kernel → Nat → Prop} {call : Call} {calls : List Call} {i : Nat}
    (h : Throughout P k (call :: calls) i) : Throughout P (call.exec k).2 calls i :=
  fun done hdone => h (call :: done) (List.prefix_cons_iff.mpr (Or.inr ⟨done, rfl, hdone⟩))

/-! ## One call -/

/-- A ready process that is not current is one that the policy may take. -/
theorem AtPass.eligible {k₁ : Kernel} (h : AtPass k k₁ c) (hq : Ready k q) (hqc : q ≠ c) :
    Eligible k₁ q := by
  unfold Eligible
  rw [h.others q hqc]
  refine ⟨hq.1, ?_⟩
  rcases wake_state k₁.tick (k.procs q) with heq | ⟨-, hready⟩
  · rw [heq]
    exact hq.2
  · exact hready

/-- The policy passes no process that it may take. -/
theorem Queue.picked_split (h : Queue k l c) (hq : q ∈ l) (hqc : q ≠ c) (hready : Eligible k q) :
    ∃ n a b, picked k l c = some n ∧ rotation l c = a ++ n :: b ∧ q ∉ a := by
  have hmem : q ∈ rotation l c := (mem_rotation h.chain.nodup h.mem).mpr ⟨hq, hqc⟩
  cases hp : picked k l c with
  | none =>
      have hnone := List.find?_eq_none.mp hp q hmem
      exact absurd (decide_eq_true hready) hnone
  | some n =>
      obtain ⟨-, a, b, hrot, hskipped⟩ := List.find?_eq_some_iff_append.mp hp
      refine ⟨n, a, b, rfl, hrot, fun hcon => ?_⟩
      have := hskipped q hcon
      rw [decide_eq_true hready] at this
      cases this

/-- A call other than a direct switch keeps a process that waits in front of one that does not. -/
theorem Orderly.waiting_step (h : Orderly k l c) (hbehind : Behind l c p q) {call : Call}
    (hpolicy : ∀ s, call ≠ .switch s) (hp : p ∈ l) (hlive : Alive k p) (hq : q ∈ l)
    (hready : Ready k q) (hready' : Ready (call.exec k).2 q) :
    ∃ l' c', Orderly (call.exec k).2 l' c' ∧ Behind l' c' p q := by
  have hnodup := h.chain.nodup
  have hqc : q ≠ c := by
    rintro rfl
    have := h.running
    rw [hready.2] at this
    cases this
  rcases h.exec_cases call with ⟨k₁, -, hqueue, hstart, hresult⟩ | ⟨s, hcall, -⟩ |
    ⟨-, hresult⟩ | ⟨-, l', h', hreshaped⟩
  · -- the policy takes a process in front of the one that waits
    obtain ⟨n, a, b, hn, hrot, hqa⟩ :=
      hqueue.picked_split hq hqc (hstart.eligible hready hqc)
    have horderly := hqueue.passed_some hn
    rw [← hresult] at horderly
    have hqn : q ≠ n := by
      rintro rfl
      have := horderly.running
      rw [hready'.2] at this
      cases this
    have hqb : q ∈ b := by
      have hmem : q ∈ rotation l c := (mem_rotation hnodup h.mem).mpr ⟨hq, hqc⟩
      rw [hrot] at hmem
      rcases List.mem_append.mp hmem with hcon | hmem
      · exact absurd hcon hqa
      · exact (List.mem_cons.mp hmem).resolve_left hqn
    exact ⟨l, n, horderly, hbehind.step hnodup h.mem hrot hqb⟩
  · exact absurd hcall (hpolicy s)
  · refine ⟨l, c, ?_, hbehind⟩
    rw [hresult]
    exact ⟨h.toQueue.congr ⟨rfl, rfl, fun _ => rfl, fun _ => rfl, fun _ => rfl, fun _ => rfl⟩ rfl
      (fun _ _ _ hrun => hrun) rfl, h.running⟩
  · obtain ⟨m, hsub, hcase⟩ := hreshaped.order
    rcases hcase with rfl | ⟨x, hx, rfl, hxready, hgone⟩
    · exact ⟨l', c, h', hbehind.sublist hsub hnodup h'.mem⟩
    · have hcx : c ≠ x := by
        rintro rfl
        have := h'.running
        rw [hxready] at this
        cases this
      have hcm : c ∈ m := by
        rcases List.mem_append.mp h'.mem with hcm | hcon
        · exact hcm
        · exact absurd (List.mem_singleton.mp hcon) hcx
      -- the new process takes a slot in which none has lived on
      have hpx : p ≠ x := by
        rintro rfl
        exact hlive.2 (hgone hp)
      have hqx : q ≠ x := by
        rintro rfl
        have := hgone hq
        rw [hready.2] at this
        cases this
      exact ⟨_, c, h', (hbehind.sublist hsub hnodup hcm).snoc (hnodup.sublist hsub) hcm hx hpx hqx⟩

/-! ## Runs -/

/-- The same over a run. -/
theorem Orderly.waiting_runs (h : Orderly k l c) (hbehind : Behind l c p q) {calls : List Call}
    (hpolicy : ∀ call ∈ calls, ∀ s, call ≠ .switch s) (hp : p < processMax) (hq : q < processMax)
    (hlive : Throughout Alive k calls p) (hready : Throughout Ready k calls q) :
    ∃ l' c', Orderly (Call.runs k calls) l' c' ∧ Behind l' c' p q := by
  induction calls generalizing k l c with
  | nil => exact ⟨l, c, h, hbehind⟩
  | cons call calls ih =>
      obtain ⟨l', c', h', hbehind'⟩ := h.waiting_step hbehind
        (hpolicy call (List.mem_cons_self ..)) ((h.members p).mpr ⟨hp, hlive.head.1⟩) hlive.head
        ((h.members q).mpr ⟨hq, hready.head.1⟩) hready.head hready.tail.head
      exact ih h' hbehind' (fun call' hcall => hpolicy call' (List.mem_cons_of_mem _ hcall))
        hlive.tail hready.tail

/-- What a pass that takes a process leaves. -/
theorem Orderly.selected_cases (h : Orderly k l c) {call : Call} (hp : call.selected k = some p) :
    ∃ k₁, RunsPass k (call.exec k).2 k₁ l c ∧ picked k₁ l c = some p := by
  rcases h.exec_cases call with ⟨k₁, hpass, hruns⟩ | ⟨s, rfl, -⟩ | ⟨rfl, -⟩ | ⟨hnone, -⟩
  · rw [hruns.queue.selected_eq hpass] at hp
    exact ⟨k₁, hruns, hp⟩
  · cases hp
  · cases hp
  · rw [Call.selected, hnone] at hp
    cases hp

/-- In a run after {lit}`process_init`, no pass takes a process a second time while another one
has been on the chain and ready ever since the first time.  Between the two passes all calls may
come in any order; only {lit}`schedule` switches, as everywhere in the source. -/
theorem round_robin_fair {k₀ : Kernel} (hnone : k₀.processList = none)
    (before between : List Call) (first last : Call) (p q : Nat)
    (hpolicy : ∀ call ∈ between, ∀ s, call ≠ .switch s)
    (hfirst : first.selected (Call.runs (processInit k₀).2 before) = some p)
    (hlast : last.selected (Call.runs (processInit k₀).2 (before ++ first :: between)) = some p)
    (hlive : Throughout Alive (Call.runs (processInit k₀).2 (before ++ [first])) between p)
    (hq : q < processMax) :
    ¬ Throughout Ready (Call.runs (processInit k₀).2 (before ++ [first])) between q := by
  intro hready
  obtain ⟨l, c, h⟩ := (processInit_orderly hnone).runs before
  obtain ⟨k₁, hruns, hpicked⟩ := h.selected_cases hfirst
  obtain ⟨hpl, -, -⟩ := hruns.queue.picked_spec hpicked
  have h₁ := hruns.queue.passed_some hpicked
  have hstate₁ : Call.runs (processInit k₀).2 (before ++ [first]) =
      (first.exec (Call.runs (processInit k₀).2 before)).2 :=
    Call.runs_append ..
  have hstate₂ : Call.runs (processInit k₀).2 (before ++ first :: between) =
      Call.runs (first.exec (Call.runs (processInit k₀).2 before)).2 between :=
    Call.runs_append ..
  rw [← hruns.result] at h₁
  rw [hstate₁] at hlive hready
  rw [hstate₂] at hlast
  have hqp : q ≠ p := by
    rintro rfl
    have := h₁.running
    rw [hready.head.2] at this
    cases this
  obtain ⟨l₂, c₂, h₂, hbehind⟩ := h₁.waiting_runs (Behind.self h₁.chain.nodup h₁.mem q) hpolicy
    ((h.members p).mp hpl).1 hq hlive hready
  -- the second time the process that waits is still in front
  obtain ⟨k₂, hruns₂, hpicked₂⟩ := h₂.selected_cases hlast
  have hready₂ : Ready (Call.runs (first.exec (Call.runs (processInit k₀).2 before)).2 between) q :=
    hready between (List.prefix_refl _)
  have hql : q ∈ l₂ := (h₂.members q).mpr ⟨hq, hready₂.1⟩
  have hqc : q ≠ c₂ := by
    rintro rfl
    have := h₂.running
    rw [hready₂.2] at this
    cases this
  obtain ⟨n, a, b, hn, hrot, hqa⟩ :=
    hruns₂.queue.picked_split hql hqc (hruns₂.start.eligible hready₂ hqc)
  rw [hpicked₂] at hn
  rw [← Option.some.inj hn] at hrot
  have hmem : q ∈ rotation l₂ c₂ := (mem_rotation h₂.chain.nodup h₂.mem).mpr ⟨hql, hqc⟩
  rw [hrot] at hmem
  rcases List.mem_append.mp hmem with hcon | hmem
  · exact hqa hcon
  · exact hbehind.not_mem hrot ((List.mem_cons.mp hmem).resolve_left hqp)

/-- Two threads start and take turns with the idle process: the second one has been taken when
the first one is taken again. -/
theorem round_robin_fair_small :
    Call.selected (Call.runs (processInit bareKernel).2 [.create 1, .create 1]) .schedule = some 1 ∧
      Call.selected (Call.runs (processInit bareKernel).2
        ([.create 1, .create 1] ++ .schedule :: [.schedule, .schedule])) .schedule = some 1 ∧
      ¬ Throughout Ready (Call.runs (processInit bareKernel).2 ([.create 1, .create 1] ++ [.schedule]))
        [.schedule, .schedule] 2 := by
  have hnone : bareKernel.processList = none := rfl
  have hfirst : Call.selected (Call.runs (processInit bareKernel).2 [.create 1, .create 1])
      .schedule = some 1 := by
    decide +kernel
  have hlast : Call.selected (Call.runs (processInit bareKernel).2
      ([.create 1, .create 1] ++ .schedule :: [.schedule, .schedule])) .schedule = some 1 := by
    decide +kernel
  refine ⟨hfirst, hlast, round_robin_fair hnone [.create 1, .create 1] [.schedule, .schedule]
    .schedule .schedule 1 2 (by simp) hfirst hlast ?_ (by decide)⟩
  intro done hdone
  rcases List.prefix_cons_iff.mp hdone with rfl | ⟨done', rfl, hdone'⟩
  · exact ⟨by decide +kernel, by decide +kernel⟩
  rcases List.prefix_cons_iff.mp hdone' with rfl | ⟨done'', rfl, hdone''⟩
  · exact ⟨by decide +kernel, by decide +kernel⟩
  rw [List.prefix_nil.mp hdone'']
  exact ⟨by decide +kernel, by decide +kernel⟩

end Process
end Nyxis
