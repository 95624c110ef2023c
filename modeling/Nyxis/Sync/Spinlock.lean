import Mathlib.Data.UInt
import Mathlib.Logic.Function.Basic
import Mathlib.Order.WellFounded

/-!
# Spinlocks and interrupts

The locks of {lit}`include/sync.h` with the flag operations of {lit}`include/lowlevel.h` that they
use.  Every access to a lock and every change of the interrupt flag is one step, the processors take
their steps in any order, and a processor whose interrupt flag is set may be interrupted between any
two of its steps.  An interrupt puts a new thread of control on top of the interrupted one, with the
interrupt flag cleared, and its return restores the flags that the interrupt has pushed.

What the threads do between the calls of {lit}`spin_lock` and {lit}`spin_unlock` is a parameter, a
{lit}`Client`.

Main results:

- Theorem {lit}`CpuStep.owners`: what one step does to the ownership of the locks.
- Theorem {lit}`Safe.step`: the invariant is kept by every step.
- Theorem {lit}`lock_excludes`: the owner of a lock is the only one, and nothing interrupts it.
- Theorem {lit}`waiting_has_runner`: a processor that waits for a lock waits for one that runs.
-/

namespace Nyxis
namespace Sync

/-! ## The interrupt flag -/

/-- {lit}`RFLAGS_IF`. -/
def rflagsIf : UInt64 := 0x200

/-- The interrupt flag is set. -/
def ifSet (flags : UInt64) : Bool :=
  flags &&& rflagsIf != 0

/-- {lit}`cli`. -/
def cli (flags : UInt64) : UInt64 :=
  flags &&& ~~~rflagsIf

/-- {lit}`sti`. -/
def sti (flags : UInt64) : UInt64 :=
  flags ||| rflagsIf

/-- {lit}`irq_restore`: set the interrupt flag if it was set in the saved flags. -/
def irqRestore (saved flags : UInt64) : UInt64 :=
  if ifSet saved then sti flags else flags

@[simp]
theorem ifSet_rflagsIf : ifSet rflagsIf = true := by
  decide

@[simp]
theorem ifSet_cli (flags : UInt64) : ifSet (cli flags) = false := by
  rw [ifSet, cli, UInt64.and_assoc, UInt64.and_comm (~~~rflagsIf), UInt64.and_not_self,
    UInt64.and_zero]
  rfl

@[simp]
theorem ifSet_sti (flags : UInt64) : ifSet (sti flags) = true := by
  have hsome : (flags ||| rflagsIf) &&& rflagsIf = rflagsIf := by
    apply UInt64.toBitVec_inj.mp
    ext i hi
    simp only [UInt64.toBitVec_and, UInt64.toBitVec_or, BitVec.getElem_and, BitVec.getElem_or]
    cases rflagsIf.toBitVec[i] <;> simp
  rw [ifSet, sti, hsome]
  rfl

/-- Flags that are restored where the interrupt flag is clear. -/
theorem ifSet_irqRestore (saved : UInt64) {flags : UInt64} (h : ifSet flags = false) :
    ifSet (irqRestore saved flags) = ifSet saved := by
  unfold irqRestore
  cases hsaved : ifSet saved with
  | true => exact ifSet_sti flags
  | false => exact h

/-! ## Locks -/

/-- {lit}`spinlock_t`. -/
structure Spinlock where
  locked : Int32
  savedFlags : UInt64

/-- {lit}`atomic_cmpxchg`: the previous value and the new one. -/
def atomicCmpxchg (value oldval newval : Int32) : Int32 × Int32 :=
  (value, if value = oldval then newval else value)

/-- Where a thread is in the code of {lit}`spin_lock` and {lit}`spin_unlock`. -/
inductive Pc (Lock : Type) where
  /-- In neither of them. -/
  | running
  /-- {lit}`irq_save` has read the flags. -/
  | saving (lock : Lock) (flags : UInt64)
  /-- The interrupt flag is clear, the next step is the compare and exchange. -/
  | trying (lock : Lock) (flags : UInt64)
  /-- In the inner loop. -/
  | spinning (lock : Lock) (flags : UInt64)
  /-- The lock is taken, its {lit}`saved_flags` are not stored yet. -/
  | won (lock : Lock) (flags : UInt64)
  /-- {lit}`spin_unlock` has read the flags. -/
  | releasing (lock : Lock) (flags : UInt64)
  /-- The lock is free again, the flags are not restored yet. -/
  | restoring (flags : UInt64)

/-- The interrupt flag has been cleared for a lock. -/
def Pc.masked {Lock : Type} : Pc Lock → Bool
  | .running | .saving _ _ => false
  | .trying _ _ | .spinning _ _ | .won _ _ | .releasing _ _ | .restoring _ => true

/-- The lock that has just been taken. -/
def Pc.taken {Lock : Type} : Pc Lock → Option Lock
  | .won l _ => some l
  | _ => none

/-- A thread of control: its place in the code of the locks, its own work, and whether it runs with
the interrupt flag set where it holds no lock. -/
structure Thread (Lock ω : Type) where
  pc : Pc Lock
  work : ω
  wanted : Bool

/-- A processor: its flags, and the threads that have interrupted each other, of which the last one
runs. -/
structure Cpu (Lock ω : Type) where
  flags : UInt64
  depth : Nat
  threads : Nat → Thread Lock ω
  /-- The flags that the interrupt at each depth has pushed. -/
  pushed : Nat → UInt64

namespace Cpu

variable {Lock ω : Type}

/-- The thread that runs. -/
def top (cpu : Cpu Lock ω) : Thread Lock ω :=
  cpu.threads cpu.depth

/-- The running thread goes on. -/
def goOn (cpu : Cpu Lock ω) (flags : UInt64) (t : Thread Lock ω) : Cpu Lock ω :=
  { cpu with flags := flags, threads := Function.update cpu.threads cpu.depth t }

/-- An interrupt starts a thread on top of the running one. -/
def interrupted (cpu : Cpu Lock ω) (work : ω) : Cpu Lock ω where
  flags := cli cpu.flags
  depth := cpu.depth + 1
  threads := Function.update cpu.threads (cpu.depth + 1) ⟨.running, work, false⟩
  pushed := Function.update cpu.pushed (cpu.depth + 1) cpu.flags

/-- The running thread returns from its interrupt. -/
def returned (cpu : Cpu Lock ω) : Cpu Lock ω :=
  { cpu with flags := cpu.pushed cpu.depth, depth := cpu.depth - 1 }

@[simp]
theorem goOn_depth (cpu : Cpu Lock ω) (flags : UInt64) (t : Thread Lock ω) :
    (cpu.goOn flags t).depth = cpu.depth :=
  rfl

@[simp]
theorem goOn_flags (cpu : Cpu Lock ω) (flags : UInt64) (t : Thread Lock ω) :
    (cpu.goOn flags t).flags = flags :=
  rfl

@[simp]
theorem goOn_pushed (cpu : Cpu Lock ω) (flags : UInt64) (t : Thread Lock ω) :
    (cpu.goOn flags t).pushed = cpu.pushed :=
  rfl

@[simp]
theorem goOn_top (cpu : Cpu Lock ω) (flags : UInt64) (t : Thread Lock ω) :
    (cpu.goOn flags t).top = t :=
  Function.update_self _ _ _

theorem goOn_threads (cpu : Cpu Lock ω) (flags : UInt64) (t : Thread Lock ω) {k : Nat}
    (hk : k < cpu.depth) : (cpu.goOn flags t).threads k = cpu.threads k :=
  Function.update_of_ne (Nat.ne_of_lt hk) _ _

@[simp]
theorem interrupted_top (cpu : Cpu Lock ω) (work : ω) :
    (cpu.interrupted work).top = ⟨.running, work, false⟩ :=
  Function.update_self _ _ _

theorem interrupted_threads (cpu : Cpu Lock ω) (work : ω) {k : Nat} (hk : k ≤ cpu.depth) :
    (cpu.interrupted work).threads k = cpu.threads k :=
  Function.update_of_ne (Nat.ne_of_lt (Nat.lt_succ_of_le hk)) _ _

end Cpu

/-! ## What the threads do -/

/-- The code that uses the locks, as the states of a thread's own work: where it calls
{lit}`spin_lock` and {lit}`spin_unlock` and how it goes on, the steps it takes by itself on the
shared data, where it sets or clears the interrupt flag, and how an interrupt handler starts and
ends. -/
structure Client (Lock σ ω : Type) where
  locks : ω → Lock → ω → Prop
  unlocks : ω → Lock → ω → Prop
  acts : ω → σ → ω → σ → Prop
  masks : ω → Prop
  starts : ω → Prop
  ends : ω → Prop

/-- The client releases the locks in the reverse order, takes them in the order of their ranks, and
sets the interrupt flag and leaves an interrupt only where it holds none. -/
structure Disciplined {Lock σ ω : Type} [LT Lock] (client : Client Lock σ ω) (held : ω → List Lock) :
    Prop where
  locks : ∀ w l w', client.locks w l w' → held w' = l :: held w ∧ ∀ m ∈ held w, m < l
  unlocks : ∀ w l w', client.unlocks w l w' → held w = l :: held w'
  acts : ∀ w d w' d', client.acts w d w' d' → held w' = held w
  masks : ∀ w, client.masks w → held w = []
  starts : ∀ w, client.starts w → held w = []
  ends : ∀ w, client.ends w → held w = []

/-- The processors, the locks and the shared data. -/
structure System (Id Lock σ ω : Type) where
  locks : Lock → Spinlock
  cpus : Id → Cpu Lock ω
  data : σ

section Steps

variable {Id Lock σ ω : Type} [DecidableEq Id] [DecidableEq Lock]

/-- One step of a processor. -/
inductive CpuStep (multicore : Bool) (client : Client Lock σ ω) (locks : Lock → Spinlock) (d : σ)
    (cpu : Cpu Lock ω) : (Lock → Spinlock) → σ → Cpu Lock ω → Prop
  /-- A step of the client, which leaves the interrupt flag alone. -/
  | act (w : ω) (d' : σ) (flags : UInt64) (hpc : cpu.top.pc = .running)
      (hact : client.acts cpu.top.work d w d') (hflags : ifSet flags = ifSet cpu.flags) :
      CpuStep multicore client locks d cpu locks d' (cpu.goOn flags ⟨.running, w, cpu.top.wanted⟩)
  /-- {lit}`cli`, {lit}`sti` or another change of the flags outside of the locks. -/
  | mask (flags : UInt64) (hpc : cpu.top.pc = .running) (hmask : client.masks cpu.top.work) :
      CpuStep multicore client locks d cpu locks d
        (cpu.goOn flags ⟨.running, cpu.top.work, ifSet flags⟩)
  /-- {lit}`spin_lock`: {lit}`irq_save` reads the flags. -/
  | readFlags (l : Lock) (w : ω) (hpc : cpu.top.pc = .running)
      (hlock : client.locks cpu.top.work l w) :
      CpuStep multicore client locks d cpu locks d
        (cpu.goOn cpu.flags { cpu.top with pc := .saving l cpu.flags })
  /-- {lit}`irq_save` clears the interrupt flag. -/
  | clearFlag (l : Lock) (f : UInt64) (hpc : cpu.top.pc = .saving l f) :
      CpuStep multicore client locks d cpu locks d
        (cpu.goOn (cli cpu.flags) { cpu.top with pc := .trying l f })
  /-- The compare and exchange. -/
  | cmpxchg (l : Lock) (f : UInt64) (hmulti : multicore = true) (hpc : cpu.top.pc = .trying l f) :
      CpuStep multicore client locks d cpu
        (Function.update locks l
          { locks l with locked := (atomicCmpxchg (locks l).locked 0 1).2 }) d
        (cpu.goOn cpu.flags { cpu.top with
          pc := if (atomicCmpxchg (locks l).locked 0 1).1 ≠ 0 then .spinning l f else .won l f })
  /-- The inner loop tests the lock. -/
  | spin (l : Lock) (f : UInt64) (hpc : cpu.top.pc = .spinning l f) :
      CpuStep multicore client locks d cpu locks d
        (cpu.goOn cpu.flags { cpu.top with
          pc := if (locks l).locked ≠ 0 then .spinning l f else .trying l f })
  /-- With one processor the lock itself is not touched. -/
  | single (l : Lock) (f : UInt64) (hmulti : multicore = false) (hpc : cpu.top.pc = .trying l f) :
      CpuStep multicore client locks d cpu locks d
        (cpu.goOn cpu.flags { cpu.top with pc := .won l f })
  /-- The owner stores the flags, and {lit}`spin_lock` returns. -/
  | storeFlags (l : Lock) (f : UInt64) (w : ω) (hpc : cpu.top.pc = .won l f)
      (hlock : client.locks cpu.top.work l w) :
      CpuStep multicore client locks d cpu
        (Function.update locks l { locks l with savedFlags := f }) d
        (cpu.goOn cpu.flags ⟨.running, w, cpu.top.wanted⟩)
  /-- {lit}`spin_unlock` reads the flags. -/
  | loadFlags (l : Lock) (w : ω) (hpc : cpu.top.pc = .running)
      (hunlock : client.unlocks cpu.top.work l w) :
      CpuStep multicore client locks d cpu locks d
        (cpu.goOn cpu.flags { cpu.top with pc := .releasing l (locks l).savedFlags })
  /-- The lock is set free. -/
  | setFree (l : Lock) (f : UInt64) (w : ω) (hpc : cpu.top.pc = .releasing l f)
      (hunlock : client.unlocks cpu.top.work l w) :
      CpuStep multicore client locks d cpu
        (if multicore = true then Function.update locks l { locks l with locked := 0 } else locks) d
        (cpu.goOn cpu.flags ⟨.restoring f, w, cpu.top.wanted⟩)
  /-- {lit}`irq_restore`, and {lit}`spin_unlock` returns. -/
  | restore (f : UInt64) (hpc : cpu.top.pc = .restoring f) :
      CpuStep multicore client locks d cpu locks d
        (cpu.goOn (irqRestore f cpu.flags) { cpu.top with pc := .running })
  /-- An interrupt. -/
  | interrupt (w : ω) (hflags : ifSet cpu.flags = true) (hstarts : client.starts w) :
      CpuStep multicore client locks d cpu locks d (cpu.interrupted w)
  /-- The return from an interrupt. -/
  | iret (hdepth : cpu.depth ≠ 0) (hpc : cpu.top.pc = .running) (hends : client.ends cpu.top.work) :
      CpuStep multicore client locks d cpu locks d cpu.returned

/-- One step of the system: one of the processors steps. -/
inductive Step (multicore : Bool) (client : Client Lock σ ω) (s : System Id Lock σ ω) :
    System Id Lock σ ω → Prop
  | cpu (c : Id) (locks : Lock → Spinlock) (d : σ) (cpu : Cpu Lock ω)
      (h : CpuStep multicore client s.locks s.data (s.cpus c) locks d cpu) :
      Step multicore client s ⟨locks, Function.update s.cpus c cpu, d⟩

/-- The start: every lock is zero, and one thread runs on every processor. -/
structure Starts (client : Client Lock σ ω) (s : System Id Lock σ ω) : Prop where
  locks : ∀ l, s.locks l = ⟨0, 0⟩
  depth : ∀ c, (s.cpus c).depth = 0
  pc : ∀ c, (s.cpus c).top.pc = .running
  work : ∀ c, client.starts (s.cpus c).top.work
  wanted : ∀ c, (s.cpus c).top.wanted = ifSet (s.cpus c).flags

/-- The states that a system gets to. -/
inductive Reachable (multicore : Bool) (client : Client Lock σ ω) (d : σ) :
    System Id Lock σ ω → Prop
  | start {s : System Id Lock σ ω} (h : Starts client s) (hdata : s.data = d) :
      Reachable multicore client d s
  | step {s s' : System Id Lock σ ω} (h : Reachable multicore client d s)
      (hstep : Step multicore client s s') : Reachable multicore client d s'

/-! ## The invariant -/

section Invariant

variable {client : Client Lock σ ω} {held : ω → List Lock} {multicore : Bool}
variable {locks locks' : Lock → Spinlock} {d d' : σ} {cpu cpu' : Cpu Lock ω} {t : Thread Lock ω}
variable {s s' : System Id Lock σ ω}

/-- A thread owns a lock from the compare and exchange that takes it to the store that frees it. -/
def Thread.Owns (held : ω → List Lock) (t : Thread Lock ω) (l : Lock) : Prop :=
  l ∈ held t.work ∨ t.pc.taken = some l

/-- The flags that a thread has read on its way into a lock or out of it. -/
def PcOk (client : Client Lock σ ω) (held : ω → List Lock) (t : Thread Lock ω) : Pc Lock → Prop
  | .running => True
  | .saving l f | .trying l f | .spinning l f | .won l f =>
      (∃ w, client.locks t.work l w) ∧ ifSet f = (t.wanted && (held t.work).isEmpty)
  | .releasing l f =>
      (∃ w, client.unlocks t.work l w) ∧ ifSet f = (t.wanted && (held t.work).tail.isEmpty)
  | .restoring f => ifSet f = (t.wanted && (held t.work).isEmpty)

/-- The outermost lock keeps the thread's own interrupt flag, the others keep a clear one. -/
def Saved (locks : Lock → Spinlock) (wanted : Bool) : List Lock → Prop
  | [] => True
  | l :: rest => ifSet (locks l).savedFlags = (wanted && rest.isEmpty) ∧ Saved locks wanted rest

/-- A thread that has been interrupted owns no lock. -/
structure Resting (client : Client Lock σ ω) (held : ω → List Lock) (t : Thread Lock ω) : Prop where
  pc : t.pc.masked = false
  empty : held t.work = []
  wanted : t.wanted = true
  ok : PcOk client held t t.pc

/-- The invariant of one processor. -/
structure CpuOk (client : Client Lock σ ω) (held : ω → List Lock) (locks : Lock → Spinlock)
    (cpu : Cpu Lock ω) : Prop where
  flags : ifSet cpu.flags = (cpu.top.wanted && (held cpu.top.work).isEmpty && !cpu.top.pc.masked)
  pc : PcOk client held cpu.top cpu.top.pc
  saved : Saved locks cpu.top.wanted (held cpu.top.work)
  nodup : (held cpu.top.work).Nodup
  below : ∀ k, k < cpu.depth → Resting client held (cpu.threads k)
  pushed : ∀ k, k < cpu.depth → ifSet (cpu.pushed (k + 1)) = true

/-- What one step does to the locks and to what the running thread owns. -/
inductive Owners (multicore : Bool) (held : ω → List Lock) (locks : Lock → Spinlock)
    (cpu : Cpu Lock ω) (locks' : Lock → Spinlock) (cpu' : Cpu Lock ω) : Prop
  /-- Nothing but the flags in a lock that it owns. -/
  | same (howns : ∀ l, cpu'.top.Owns held l ↔ cpu.top.Owns held l)
      (hlocked : ∀ l, (locks' l).locked = (locks l).locked)
      (hsaved : ∀ l, ¬cpu.top.Owns held l → locks' l = locks l)
  /-- A lock is taken. -/
  | take (l : Lock) (howns : ∀ m, cpu'.top.Owns held m ↔ cpu.top.Owns held m ∨ m = l)
      (hsaved : ∀ m, (locks' m).savedFlags = (locks m).savedFlags)
      (hlocked : multicore = true → (locks l).locked = 0 ∧ (locks' l).locked = 1 ∧
        ∀ m, m ≠ l → locks' m = locks m)
  /-- A lock is set free. -/
  | drop (l : Lock) (howner : cpu.top.Owns held l)
      (howns : ∀ m, cpu'.top.Owns held m ↔ cpu.top.Owns held m ∧ m ≠ l)
      (hsaved : ∀ m, (locks' m).savedFlags = (locks m).savedFlags)
      (hlocked : multicore = true → (locks' l).locked = 0 ∧ ∀ m, m ≠ l → locks' m = locks m)

/-- The invariant of the system. -/
structure Safe (multicore : Bool) (client : Client Lock σ ω) (held : ω → List Lock)
    (s : System Id Lock σ ω) : Prop where
  cpu : ∀ c, CpuOk client held s.locks (s.cpus c)
  unique : ∀ c c' l, (s.cpus c).top.Owns held l → (s.cpus c').top.Owns held l → c = c'
  locked : multicore = true → ∀ l, ((s.locks l).locked = 0 ∧ ∀ c, ¬(s.cpus c).top.Owns held l) ∨
    ((s.locks l).locked = 1 ∧ ∃ c, (s.cpus c).top.Owns held l)

omit [DecidableEq Lock] in
theorem Saved.congr {wanted : Bool} {ls : List Lock} (h : Saved locks wanted ls)
    (hsame : ∀ l ∈ ls, (locks' l).savedFlags = (locks l).savedFlags) : Saved locks' wanted ls := by
  induction ls with
  | nil => trivial
  | cons l rest ih =>
      rw [Saved, hsame l List.mem_cons_self]
      exact ⟨h.1, ih h.2 (fun m hm => hsame m (List.mem_cons_of_mem l hm))⟩

omit [DecidableEq Lock] in
/-- A thread that has not just taken a lock owns what it holds. -/
theorem Thread.owns_iff (h : t.pc.taken = none) (l : Lock) : t.Owns held l ↔ l ∈ held t.work := by
  rw [Thread.Owns, h]
  constructor
  · rintro (hmem | hno)
    · exact hmem
    · cases hno
  · exact Or.inl

omit [DecidableEq Lock] in
theorem Thread.owns_congr {t' : Thread Lock ω} (h : t.pc.taken = none) (h' : t'.pc.taken = none)
    (hheld : held t'.work = held t.work) (l : Lock) : t'.Owns held l ↔ t.Owns held l := by
  rw [Thread.owns_iff h', Thread.owns_iff h, hheld]

omit [DecidableEq Lock] in
theorem Pc.taken_of_not_masked {pc : Pc Lock} (h : pc.masked = false) : pc.taken = none := by
  cases pc with
  | running => rfl
  | saving l f => rfl
  | trying l f => cases h
  | spinning l f => cases h
  | won l f => cases h
  | releasing l f => cases h
  | restoring f => cases h

omit [DecidableEq Lock] in
theorem Resting.not_owns (h : Resting client held t) (l : Lock) : ¬t.Owns held l := by
  rw [Thread.owns_iff (Pc.taken_of_not_masked h.pc), h.empty]
  exact List.not_mem_nil

omit [DecidableEq Lock] in
/-- A thread that may be interrupted. -/
theorem CpuOk.resting (h : CpuOk client held locks cpu) (hflags : ifSet cpu.flags = true) :
    Resting client held cpu.top := by
  have hall := h.flags
  rw [hflags, eq_comm, Bool.and_eq_true, Bool.and_eq_true, List.isEmpty_iff] at hall
  exact ⟨by simpa using hall.2, hall.1.2, hall.1.1, h.pc⟩

omit [DecidableEq Lock] in
/-- A step that leaves the locks alone, and does not take one or free one. -/
theorem Owners.of_taken (h : cpu.top.pc.taken = none) (h' : cpu'.top.pc.taken = none)
    (hheld : held cpu'.top.work = held cpu.top.work) : Owners multicore held locks cpu locks cpu' :=
  .same (fun l => Thread.owns_congr h h' hheld l) (fun _ => rfl) (fun _ _ => rfl)

/-- One step leaves the ownership of the locks alone, or takes a free lock, or frees an owned one. -/
theorem CpuStep.owners [LT Lock] (hdisc : Disciplined client held) (h : CpuOk client held locks cpu)
    (hstep : CpuStep multicore client locks d cpu locks' d' cpu') :
    Owners multicore held locks cpu locks' cpu' := by
  cases hstep with
  | act w d' flags hpc hact hflags =>
      refine Owners.of_taken (by rw [hpc]; rfl) (by rw [Cpu.goOn_top]; rfl) ?_
      rw [Cpu.goOn_top]
      exact hdisc.acts _ _ _ _ hact
  | mask flags hpc hmask =>
      exact Owners.of_taken (by rw [hpc]; rfl) (by rw [Cpu.goOn_top]; rfl) (by rw [Cpu.goOn_top])
  | readFlags l w hpc hlock =>
      exact Owners.of_taken (by rw [hpc]; rfl) (by rw [Cpu.goOn_top]; rfl) (by rw [Cpu.goOn_top])
  | clearFlag l f hpc =>
      exact Owners.of_taken (by rw [hpc]; rfl) (by rw [Cpu.goOn_top]; rfl) (by rw [Cpu.goOn_top])
  | cmpxchg l f hmulti hpc =>
      by_cases hfree : (locks l).locked = 0
      · refine Owners.take l (fun m => ?_) (fun m => ?_) (fun _ => ⟨hfree, ?_, fun m hm => ?_⟩)
        · rw [Cpu.goOn_top, Thread.owns_iff (t := cpu.top) (by rw [hpc]; rfl), Thread.Owns]
          simp only [atomicCmpxchg, hfree, ne_eq, not_true, if_false, Pc.taken, Option.some.injEq]
          rw [eq_comm]
        · by_cases hm : m = l
          · subst hm
            rw [Function.update_self]
          · rw [Function.update_of_ne hm]
        · rw [Function.update_self, atomicCmpxchg, if_pos hfree]
        · rw [Function.update_of_ne hm]
      · have hsame : Function.update locks l
            { locks l with locked := (atomicCmpxchg (locks l).locked 0 1).2 } = locks := by
          rw [atomicCmpxchg, if_neg hfree]
          exact Function.update_eq_self l locks
        rw [hsame, atomicCmpxchg, if_pos hfree]
        exact Owners.of_taken (by rw [hpc]; rfl) (by rw [Cpu.goOn_top]; rfl) (by rw [Cpu.goOn_top])
  | spin l f hpc =>
      refine Owners.of_taken (by rw [hpc]; rfl) ?_ (by rw [Cpu.goOn_top])
      rw [Cpu.goOn_top]
      split
      next => rfl
      next => rfl
  | single l f hmulti hpc =>
      refine Owners.take l (fun m => ?_) (fun _ => rfl) (fun hno => ?_)
      · rw [Cpu.goOn_top, Thread.owns_iff (t := cpu.top) (by rw [hpc]; rfl), Thread.Owns, Pc.taken,
          Option.some.injEq, eq_comm]
      · rw [hmulti] at hno
        cases hno
  | storeFlags l f w hpc hlock =>
      have howner : cpu.top.Owns held l := Or.inr (by rw [hpc]; rfl)
      refine Owners.same (fun m => ?_) (fun m => ?_) (fun m hm => ?_)
      · rw [Cpu.goOn_top, Thread.owns_iff rfl, Thread.Owns, (hdisc.locks _ _ _ hlock).1, hpc, Pc.taken,
          List.mem_cons, Option.some.injEq, or_comm, eq_comm]
      · by_cases hm : m = l
        · subst hm
          rw [Function.update_self]
        · rw [Function.update_of_ne hm]
      · refine Function.update_of_ne ?_ _ _
        rintro rfl
        exact hm howner
  | loadFlags l w hpc hunlock =>
      exact Owners.of_taken (by rw [hpc]; rfl) (by rw [Cpu.goOn_top]; rfl) (by rw [Cpu.goOn_top])
  | setFree l f w hpc hunlock =>
      have hheld := hdisc.unlocks _ _ _ hunlock
      have hnot : l ∉ held w := by
        have hnodup := h.nodup
        rw [hheld] at hnodup
        exact (List.nodup_cons.mp hnodup).1
      have howns : ∀ m, cpu.top.Owns held m ↔ m ∈ held cpu.top.work :=
        fun m => Thread.owns_iff (by rw [hpc]; rfl) m
      refine Owners.drop l ?_ (fun m => ?_) (fun m => ?_) (fun hmulti => ?_)
      · rw [howns, hheld]
        exact List.mem_cons_self
      · rw [Cpu.goOn_top, Thread.owns_iff rfl, howns, hheld, List.mem_cons]
        constructor
        · intro hm
          refine ⟨Or.inr hm, ?_⟩
          rintro rfl
          exact hnot hm
        · rintro ⟨rfl | hm, hne⟩
          · exact absurd rfl hne
          · exact hm
      · split
        next =>
          by_cases hm : m = l
          · subst hm
            rw [Function.update_self]
          · rw [Function.update_of_ne hm]
        next => rfl
      · rw [if_pos hmulti, Function.update_self]
        exact ⟨rfl, fun m hm => Function.update_of_ne hm _ _⟩
  | restore f hpc =>
      exact Owners.of_taken (by rw [hpc]; rfl) (by rw [Cpu.goOn_top]; rfl) (by rw [Cpu.goOn_top])
  | interrupt w hflags hstarts =>
      have hrest := h.resting hflags
      refine Owners.of_taken (Pc.taken_of_not_masked hrest.pc) (by rw [Cpu.interrupted_top]; rfl) ?_
      rw [Cpu.interrupted_top, hrest.empty]
      exact hdisc.starts w hstarts
  | iret hdepth hpc hends =>
      have hrest := h.below (cpu.depth - 1) (Nat.sub_lt (Nat.pos_of_ne_zero hdepth) Nat.one_pos)
      refine Owners.of_taken (by rw [hpc]; rfl) (Pc.taken_of_not_masked hrest.pc) ?_
      rw [hdisc.ends _ hends]
      exact hrest.empty

omit [DecidableEq Lock] in
/-- The running thread goes on: what is below it stays. -/
theorem CpuOk.goOn (h : CpuOk client held locks cpu) {flags : UInt64}
    (hflags : ifSet flags = (t.wanted && (held t.work).isEmpty && !t.pc.masked))
    (hpc : PcOk client held t t.pc) (hsaved : Saved locks' t.wanted (held t.work))
    (hnodup : (held t.work).Nodup) : CpuOk client held locks' (cpu.goOn flags t) where
  flags := by
    rw [Cpu.goOn_top]
    exact hflags
  pc := by
    rw [Cpu.goOn_top]
    exact hpc
  saved := by
    rw [Cpu.goOn_top]
    exact hsaved
  nodup := by
    rw [Cpu.goOn_top]
    exact hnodup
  below := by
    intro k hk
    rw [Cpu.goOn_threads cpu flags t hk]
    exact h.below k hk
  pushed := h.pushed

omit [DecidableEq Lock] in
/-- The running thread goes on with the same work and without a change of the flags. -/
theorem CpuOk.goOn_pc {pc : Pc Lock} (h : CpuOk client held locks cpu)
    (hmasked : pc.masked = cpu.top.pc.masked) (hpc : PcOk client held cpu.top pc)
    (hlocks : ∀ l, (locks' l).savedFlags = (locks l).savedFlags) :
    CpuOk client held locks' (cpu.goOn cpu.flags { cpu.top with pc := pc }) := by
  refine h.goOn ?_ ?_ (h.saved.congr (fun l _ => hlocks l)) h.nodup
  · rw [h.flags]
    dsimp only
    rw [hmasked]
  · -- the flags that a thread has read do not depend on its place
    cases pc with
    | running => trivial
    | saving l f => exact hpc
    | trying l f => exact hpc
    | spinning l f => exact hpc
    | won l f => exact hpc
    | releasing l f => exact hpc
    | restoring f => exact hpc

omit [DecidableEq Lock] in
/-- What the flags are where no lock is on its way. -/
theorem CpuOk.flags_running (h : CpuOk client held locks cpu) (hpc : cpu.top.pc.masked = false) :
    ifSet cpu.flags = (cpu.top.wanted && (held cpu.top.work).isEmpty) := by
  rw [h.flags, hpc, Bool.not_false, Bool.and_true]

/-- Every step of a processor keeps its invariant. -/
theorem CpuStep.keeps [LT Lock] [Std.Irrefl (α := Lock) (· < ·)] (hdisc : Disciplined client held)
    (h : CpuOk client held locks cpu) (hstep : CpuStep multicore client locks d cpu locks' d' cpu') :
    CpuOk client held locks' cpu' := by
  cases hstep with
  | act w d' flags hpc hact hflags =>
      have hheld := hdisc.acts _ _ _ _ hact
      have hrun := h.flags_running (by rw [hpc]; rfl)
      refine h.goOn ?_ trivial ?_ ?_
      · rw [hflags, hrun, hheld, Pc.masked, Bool.not_false, Bool.and_true]
      · rw [hheld]
        exact h.saved
      · rw [hheld]
        exact h.nodup
  | mask flags hpc hmask =>
      have hheld := hdisc.masks _ hmask
      refine h.goOn ?_ trivial ?_ h.nodup
      · rw [hheld, Pc.masked, Bool.not_false, Bool.and_true]
        exact (Bool.and_true _).symm
      · rw [hheld]
        trivial
  | readFlags l w hpc hlock =>
      refine h.goOn_pc (by rw [hpc]; rfl) ⟨⟨w, hlock⟩, ?_⟩ (fun _ => rfl)
      exact h.flags_running (by rw [hpc]; rfl)
  | clearFlag l f hpc =>
      have hok := h.pc
      rw [hpc] at hok
      refine h.goOn ?_ hok h.saved h.nodup
      rw [ifSet_cli, Pc.masked, Bool.not_true, Bool.and_false]
  | cmpxchg l f hmulti hpc =>
      have hok := h.pc
      rw [hpc] at hok
      refine h.goOn_pc ?_ ?_ (fun m => ?_)
      · rw [hpc]
        split
        next => rfl
        next => rfl
      · split
        next => exact hok
        next => exact hok
      · by_cases hm : m = l
        · subst hm
          rw [Function.update_self]
        · rw [Function.update_of_ne hm]
  | spin l f hpc =>
      have hok := h.pc
      rw [hpc] at hok
      refine h.goOn_pc ?_ ?_ (fun _ => rfl)
      · rw [hpc]
        split
        next => rfl
        next => rfl
      · split
        next => exact hok
        next => exact hok
  | single l f hmulti hpc =>
      have hok := h.pc
      rw [hpc] at hok
      exact h.goOn_pc (by rw [hpc]; rfl) hok (fun _ => rfl)
  | storeFlags l f w hpc hlock =>
      obtain ⟨hheld, hbelow⟩ := hdisc.locks _ _ _ hlock
      have hnot : l ∉ held cpu.top.work := fun hmem => irrefl l (hbelow l hmem)
      have hok := h.pc
      rw [hpc] at hok
      have hflags := h.flags
      rw [hpc, Pc.masked, Bool.not_true, Bool.and_false] at hflags
      refine h.goOn ?_ trivial ?_ ?_
      · rw [hflags, hheld, List.isEmpty_cons, Bool.and_false, Bool.false_and]
      · rw [hheld, Saved, Function.update_self]
        refine ⟨hok.2, h.saved.congr (fun m hm => ?_)⟩
        rw [Function.update_of_ne]
        rintro rfl
        exact hnot hm
      · rw [hheld]
        exact List.nodup_cons.mpr ⟨hnot, h.nodup⟩
  | loadFlags l w hpc hunlock =>
      have hheld := hdisc.unlocks _ _ _ hunlock
      have hsaved := h.saved
      rw [hheld] at hsaved
      have hflags := h.flags
      rw [hheld, List.isEmpty_cons, Bool.and_false, Bool.false_and] at hflags
      refine h.goOn ?_ ⟨⟨w, hunlock⟩, ?_⟩ h.saved h.nodup
      · rw [hflags, hheld, List.isEmpty_cons, Bool.and_false, Bool.false_and]
      · rw [hheld]
        exact hsaved.1
  | setFree l f w hpc hunlock =>
      have hheld := hdisc.unlocks _ _ _ hunlock
      have hok := h.pc
      rw [hpc, PcOk, hheld] at hok
      have hsaved := h.saved
      rw [hheld] at hsaved
      have hnodup := h.nodup
      rw [hheld] at hnodup
      have hflags := h.flags
      rw [hpc, Pc.masked, Bool.not_true, Bool.and_false] at hflags
      refine h.goOn ?_ hok.2 (hsaved.2.congr (fun m _ => ?_)) (List.nodup_cons.mp hnodup).2
      · rw [hflags, Pc.masked, Bool.not_true, Bool.and_false]
      · split
        next =>
          by_cases hm : m = l
          · subst hm
            rw [Function.update_self]
          · rw [Function.update_of_ne hm]
        next => rfl
  | restore f hpc =>
      have hok := h.pc
      rw [hpc, PcOk] at hok
      have hflags := h.flags
      rw [hpc, Pc.masked, Bool.not_true, Bool.and_false] at hflags
      refine h.goOn ?_ trivial h.saved h.nodup
      rw [ifSet_irqRestore f hflags, hok, Pc.masked, Bool.not_false, Bool.and_true]
  | interrupt w hflags hstarts =>
      have hheld := hdisc.starts w hstarts
      refine ⟨?_, ?_, ?_, ?_, fun k hk => ?_, fun k hk => ?_⟩
      · rw [Cpu.interrupted_top]
        exact ifSet_cli cpu.flags
      · rw [Cpu.interrupted_top]
        trivial
      · rw [Cpu.interrupted_top, hheld]
        trivial
      · rw [Cpu.interrupted_top, hheld]
        exact List.nodup_nil
      · have hle := Nat.le_of_lt_succ hk
        rw [Cpu.interrupted_threads cpu w hle]
        rcases Nat.lt_or_eq_of_le hle with hlt | rfl
        · exact h.below k hlt
        · exact h.resting hflags
      · rcases Nat.lt_or_eq_of_le (Nat.le_of_lt_succ hk) with hlt | rfl
        · have hne : k + 1 ≠ cpu.depth + 1 := Nat.ne_of_lt (Nat.succ_lt_succ hlt)
          exact (congrArg ifSet (Function.update_of_ne hne _ _)).trans (h.pushed k hlt)
        · exact (congrArg ifSet (Function.update_self _ _ _)).trans hflags
  | iret hdepth hpc hends =>
      obtain ⟨k, hk⟩ := Nat.exists_eq_succ_of_ne_zero hdepth
      have hlt : k < cpu.depth := hk ▸ Nat.lt_succ_self k
      have htop : cpu.returned.top = cpu.threads k := by
        rw [Cpu.top, Cpu.returned, hk]
        rfl
      have hrest := h.below k hlt
      refine ⟨?_, ?_, ?_, ?_, fun j hj => ?_, fun j hj => ?_⟩
      · rw [htop, hrest.wanted, hrest.empty, hrest.pc]
        change ifSet (cpu.pushed cpu.depth) = true
        rw [hk]
        exact h.pushed k hlt
      · rw [htop]
        exact hrest.ok
      · rw [htop, hrest.empty]
        trivial
      · rw [htop, hrest.empty]
        exact List.nodup_nil
      · exact h.below j (hj.trans_le (Nat.sub_le _ _))
      · exact h.pushed j (hj.trans_le (Nat.sub_le _ _))

/-! ## All runs -/

omit [DecidableEq Lock] in
/-- A processor whose locks keep their flags. -/
theorem CpuOk.relock (h : CpuOk client held locks cpu)
    (hsame : ∀ l, cpu.top.Owns held l → (locks' l).savedFlags = (locks l).savedFlags) :
    CpuOk client held locks' cpu :=
  ⟨h.flags, h.pc, h.saved.congr (fun l hl => hsame l (Or.inl hl)), h.nodup, h.below, h.pushed⟩

omit [DecidableEq Lock] in
theorem Owners.saved {m : Lock} (h : Owners multicore held locks cpu locks' cpu')
    (hm : ¬cpu.top.Owns held m) : (locks' m).savedFlags = (locks m).savedFlags := by
  cases h with
  | same howns hlocked hsaved => rw [hsaved m hm]
  | take l howns hsaved hlocked => exact hsaved m
  | drop l howner howns hsaved hlocked => exact hsaved m

omit [DecidableEq Id] [DecidableEq Lock] in
/-- A lock that a step takes has been free. -/
theorem Safe.not_owned (h : Safe multicore client held s) (hsingle : multicore = false → Subsingleton Id)
    {c c' : Id} (hne : c' ≠ c) {m : Lock} (hmulti : multicore = true → (s.locks m).locked = 0) :
    ¬(s.cpus c').top.Owns held m := by
  cases hcore : multicore with
  | false =>
      have := hsingle hcore
      exact absurd (Subsingleton.elim c' c) hne
  | true =>
      rcases h.locked hcore m with ⟨-, hnone⟩ | ⟨hone, -⟩
      · exact hnone c'
      · rw [hmulti hcore] at hone
        exact absurd hone (by decide)

omit [DecidableEq Id] [DecidableEq Lock] in
/-- What the processors own after one of them has stepped. -/
theorem Safe.unique_step (h : Safe multicore client held s)
    (hsingle : multicore = false → Subsingleton Id) {c : Id}
    (howners : Owners multicore held s.locks (s.cpus c) locks' cpu') {c' : Id} (hne : c' ≠ c) {m : Lock}
    (hc : cpu'.top.Owns held m) : ¬(s.cpus c').top.Owns held m := by
  intro hc'
  cases howners with
  | same howns hlocked hsaved => exact hne (h.unique c' c m hc' ((howns m).mp hc))
  | take l howns hsaved hlocked =>
      rcases (howns m).mp hc with hold | rfl
      · exact hne (h.unique c' c m hc' hold)
      · exact h.not_owned hsingle hne (fun hmulti => (hlocked hmulti).1) hc'
  | drop l howner howns hsaved hlocked => exact hne (h.unique c' c m hc' ((howns m).mp hc).1)

omit [DecidableEq Lock] in
/-- The word of a lock says whether it is owned. -/
theorem Safe.locked_step (h : Safe multicore client held s) (hmulti : multicore = true) {c : Id}
    (howners : Owners multicore held s.locks (s.cpus c) locks' cpu') (m : Lock) :
    ((locks' m).locked = 0 ∧ ∀ c', ¬(Function.update s.cpus c cpu' c').top.Owns held m) ∨
      ((locks' m).locked = 1 ∧ ∃ c', (Function.update s.cpus c cpu' c').top.Owns held m) := by
  have hupdate : ∀ P : Thread Lock ω → Prop,
      (∃ c', P (Function.update s.cpus c cpu' c').top) ↔ P cpu'.top ∨ ∃ c', c' ≠ c ∧ P (s.cpus c').top := by
    intro P
    constructor
    · rintro ⟨c', hP⟩
      by_cases hc : c' = c
      · rw [hc, Function.update_self] at hP
        exact Or.inl hP
      · rw [Function.update_of_ne hc] at hP
        exact Or.inr ⟨c', hc, hP⟩
    · rintro (hP | ⟨c', hc, hP⟩)
      · exact ⟨c, by rwa [Function.update_self]⟩
      · exact ⟨c', by rwa [Function.update_of_ne hc]⟩
  rw [← not_exists, hupdate (fun t => t.Owns held m)]
  have hsame : ((locks' m).locked = (s.locks m).locked) →
      (cpu'.top.Owns held m ↔ (s.cpus c).top.Owns held m) →
      ((locks' m).locked = 0 ∧ ¬(cpu'.top.Owns held m ∨ ∃ c', c' ≠ c ∧ (s.cpus c').top.Owns held m)) ∨
        ((locks' m).locked = 1 ∧
          (cpu'.top.Owns held m ∨ ∃ c', c' ≠ c ∧ (s.cpus c').top.Owns held m)) := by
    intro hlocked howns
    rw [hlocked, howns]
    rcases h.locked hmulti m with ⟨hzero, hnone⟩ | ⟨hone, c', hc'⟩
    · refine Or.inl ⟨hzero, ?_⟩
      rintro (hc | ⟨c', -, hc'⟩)
      · exact hnone c hc
      · exact hnone c' hc'
    · refine Or.inr ⟨hone, ?_⟩
      by_cases hc : c' = c
      · exact Or.inl (hc ▸ hc')
      · exact Or.inr ⟨c', hc, hc'⟩
  cases howners with
  | same howns hlocked hsaved => exact hsame (hlocked m) (howns m)
  | take l howns hsaved hlocked =>
      obtain ⟨hzero, hone, hrest⟩ := hlocked hmulti
      by_cases hm : m = l
      · subst hm
        exact Or.inr ⟨hone, Or.inl ((howns m).mpr (Or.inr rfl))⟩
      · refine hsame (by rw [hrest m hm]) ?_
        rw [howns, or_iff_left hm]
  | drop l howner howns hsaved hlocked =>
      obtain ⟨hzero, hrest⟩ := hlocked hmulti
      by_cases hm : m = l
      · subst hm
        refine Or.inl ⟨hzero, ?_⟩
        rintro (hc | ⟨c', hne, hc'⟩)
        · exact ((howns m).mp hc).2 rfl
        · exact hne (h.unique c' c m hc' howner)
      · refine hsame (by rw [hrest m hm]) ?_
        rw [howns, and_iff_left hm]

/-- Every step of the system keeps the invariant. -/
theorem Safe.step [LT Lock] [Std.Irrefl (α := Lock) (· < ·)] (h : Safe multicore client held s)
    (hdisc : Disciplined client held) (hsingle : multicore = false → Subsingleton Id)
    (hstep : Step multicore client s s') : Safe multicore client held s' := by
  cases hstep with
  | cpu c locks d cpu hcpu =>
      have howners := hcpu.owners hdisc (h.cpu c)
      refine ⟨fun c' => ?_, fun c₁ c₂ l h₁ h₂ => ?_, fun hmulti => h.locked_step hmulti howners⟩
      · dsimp only
        by_cases hc : c' = c
        · rw [hc, Function.update_self]
          exact hcpu.keeps hdisc (h.cpu c)
        · rw [Function.update_of_ne hc]
          exact (h.cpu c').relock (fun l hl => howners.saved (fun howns => hc (h.unique c' c l hl howns)))
      · dsimp only at h₁ h₂
        by_cases hc₁ : c₁ = c
        · rw [hc₁, Function.update_self] at h₁
          by_cases hc₂ : c₂ = c
          · rw [hc₁, hc₂]
          · rw [Function.update_of_ne hc₂] at h₂
            exact absurd h₂ (h.unique_step hsingle howners hc₂ h₁)
        · rw [Function.update_of_ne hc₁] at h₁
          by_cases hc₂ : c₂ = c
          · rw [hc₂, Function.update_self] at h₂
            exact absurd h₁ (h.unique_step hsingle howners hc₁ h₂)
          · rw [Function.update_of_ne hc₂] at h₂
            exact h.unique c₁ c₂ l h₁ h₂

omit [DecidableEq Id] [DecidableEq Lock] in
/-- The invariant holds at the start. -/
theorem Starts.safe [LT Lock] (h : Starts client s) (hdisc : Disciplined client held) :
    Safe multicore client held s := by
  have hnone : ∀ c l, ¬(s.cpus c).top.Owns held l := by
    intro c l
    rw [Thread.owns_iff (by rw [h.pc c]; rfl), hdisc.starts _ (h.work c)]
    exact List.not_mem_nil
  refine ⟨fun c => ⟨?_, ?_, ?_, ?_, fun k hk => ?_, fun k hk => ?_⟩, fun c c' l hc => ?_,
    fun _ l => Or.inl ⟨?_, fun c => hnone c l⟩⟩
  · rw [h.wanted c, hdisc.starts _ (h.work c), h.pc c]
    exact (Bool.and_true _).symm.trans (Bool.and_true _).symm
  · rw [h.pc c]
    trivial
  · rw [hdisc.starts _ (h.work c)]
    trivial
  · rw [hdisc.starts _ (h.work c)]
    exact List.nodup_nil
  · rw [h.depth c] at hk
    exact absurd hk (Nat.not_lt_zero k)
  · rw [h.depth c] at hk
    exact absurd hk (Nat.not_lt_zero k)
  · exact absurd hc (hnone c l)
  · rw [h.locks l]

/-- The invariant holds in every state of every run. -/
theorem Reachable.safe [LT Lock] [Std.Irrefl (α := Lock) (· < ·)] (h : Reachable multicore client d s)
    (hdisc : Disciplined client held) (hsingle : multicore = false → Subsingleton Id) :
    Safe multicore client held s := by
  induction h with
  | start hstarts _ => exact hstarts.safe hdisc
  | step _ hstep ih => exact ih.step hdisc hsingle hstep

omit [DecidableEq Lock] in
/-- An owner of a lock is the thread that runs on its processor. -/
theorem CpuOk.owner_runs (h : CpuOk client held locks cpu) {k : Nat} (hk : k ≤ cpu.depth) {l : Lock}
    (howns : (cpu.threads k).Owns held l) : k = cpu.depth := by
  rcases Nat.lt_or_eq_of_le hk with hlt | heq
  · exact absurd howns ((h.below k hlt).not_owns l)
  · exact heq

omit [DecidableEq Lock] in
/-- While a lock is owned its processor is not interrupted. -/
theorem CpuOk.owner_masked (h : CpuOk client held locks cpu) {l : Lock}
    (howns : cpu.top.Owns held l) : ifSet cpu.flags = false := by
  rw [← Bool.not_eq_true]
  exact fun hflags => (h.resting hflags).not_owns l howns

/-- In every state of every run, whatever the processors and the interrupts do: a lock has one owner
at most, the owner is the thread that runs on its processor, and it is not interrupted; and a thread
that is in no lock and on its way to none runs with the interrupt flag that it has set itself. -/
theorem lock_excludes [LT Lock] [Std.Irrefl (α := Lock) (· < ·)] (hdisc : Disciplined client held)
    (hsingle : multicore = false → Subsingleton Id) (h : Reachable multicore client d s) :
    (∀ c c' k k' l, k ≤ (s.cpus c).depth → k' ≤ (s.cpus c').depth →
      ((s.cpus c).threads k).Owns held l → ((s.cpus c').threads k').Owns held l →
        c = c' ∧ k = k' ∧ k = (s.cpus c).depth ∧ ifSet (s.cpus c).flags = false) ∧
      ∀ c, (s.cpus c).top.pc = .running → held (s.cpus c).top.work = [] →
        ifSet (s.cpus c).flags = (s.cpus c).top.wanted := by
  have hsafe := h.safe hdisc hsingle
  refine ⟨fun c c' k k' l hk hk' howns howns' => ?_, fun c hpc hheld => ?_⟩
  · obtain rfl := (hsafe.cpu c).owner_runs hk howns
    obtain rfl := (hsafe.cpu c').owner_runs hk' howns'
    obtain rfl := hsafe.unique c c' l howns howns'
    exact ⟨rfl, rfl, rfl, (hsafe.cpu c).owner_masked howns⟩
  · rw [(hsafe.cpu c).flags_running (by rw [hpc]; rfl), hheld]
    exact Bool.and_true _

/-! ## No deadlock -/

/-- A thread that is in {lit}`spin_lock` for a lock and has masked the interrupts. -/
def Thread.Tries (t : Thread Lock ω) (l : Lock) : Prop :=
  ∃ f, t.pc = .trying l f ∨ t.pc = .spinning l f

/-- A thread that tries a lock which another thread owns. -/
def System.Waits (held : ω → List Lock) (s : System Id Lock σ ω) (c : Id) : Prop :=
  ∃ l c', (s.cpus c).top.Tries l ∧ (s.cpus c').top.Owns held l

/-- The client does not end inside a lock. -/
def Lively (client : Client Lock σ ω) (held : ω → List Lock) : Prop :=
  ∀ w d, held w ≠ [] → (∃ w' d', client.acts w d w' d') ∨ (∃ l w', client.locks w l w') ∨
    ∃ l w', client.unlocks w l w'

omit [DecidableEq Lock] in
/-- Whoever tries a lock owns only locks of smaller rank. -/
theorem CpuOk.tries_above [LT Lock] (hdisc : Disciplined client held)
    (h : CpuOk client held locks cpu) {l m : Lock} (htries : cpu.top.Tries l)
    (howns : cpu.top.Owns held m) : m < l := by
  obtain ⟨f, hpc⟩ := htries
  have hok := h.pc
  have htaken : cpu.top.pc.taken = none := by
    rcases hpc with hpc | hpc
    · rw [hpc]
      rfl
    · rw [hpc]
      rfl
  have hcall : ∃ w, client.locks cpu.top.work l w := by
    rcases hpc with hpc | hpc
    · rw [hpc] at hok
      exact hok.1
    · rw [hpc] at hok
      exact hok.1
  obtain ⟨w, hlock⟩ := hcall
  exact (hdisc.locks _ _ _ hlock).2 m ((Thread.owns_iff htaken m).mp howns)

/-- An owner can always go on. -/
theorem CpuOk.owner_steps (h : CpuOk client held locks cpu) (hlively : Lively client held) {l : Lock}
    (howns : cpu.top.Owns held l) (d : σ) :
    ∃ locks' d' cpu', CpuStep multicore client locks d cpu locks' d' cpu' := by
  have hok := h.pc
  cases hpc : cpu.top.pc with
  | running =>
      have hheld : held cpu.top.work ≠ [] := by
        rw [Thread.owns_iff (by rw [hpc]; rfl)] at howns
        exact List.ne_nil_of_mem howns
      rcases hlively cpu.top.work d hheld with ⟨w, d', hact⟩ | ⟨m, w, hlock⟩ | ⟨m, w, hunlock⟩
      · exact ⟨_, _, _, .act w d' cpu.flags hpc hact rfl⟩
      · exact ⟨_, _, _, .readFlags m w hpc hlock⟩
      · exact ⟨_, _, _, .loadFlags m w hpc hunlock⟩
  | saving m f => exact ⟨_, _, _, .clearFlag m f hpc⟩
  | trying m f =>
      cases hcore : multicore with
      | false => exact ⟨_, _, _, .single m f rfl hpc⟩
      | true => exact ⟨_, _, _, .cmpxchg m f rfl hpc⟩
  | spinning m f => exact ⟨_, _, _, .spin m f hpc⟩
  | won m f =>
      rw [hpc] at hok
      obtain ⟨⟨w, hlock⟩, -⟩ := hok
      exact ⟨_, _, _, .storeFlags m f w hpc hlock⟩
  | releasing m f =>
      rw [hpc] at hok
      obtain ⟨⟨w, hunlock⟩, -⟩ := hok
      exact ⟨_, _, _, .setFree m f w hpc hunlock⟩
  | restoring f => exact ⟨_, _, _, .restore f hpc⟩

omit [DecidableEq Id] [DecidableEq Lock] in
/-- From the owner of a lock, over the locks that the owners wait for, to an owner that waits for
none. -/
theorem Safe.runner_above [PartialOrder Lock] [WellFoundedGT Lock] (h : Safe multicore client held s)
    (hdisc : Disciplined client held) (l : Lock) {c : Id} (howns : (s.cpus c).top.Owns held l) :
    ∃ c' l', l ≤ l' ∧ (s.cpus c').top.Owns held l' ∧ ¬s.Waits held c' := by
  induction l using WellFoundedGT.induction generalizing c with
  | ind l ih =>
      by_cases hwaits : s.Waits held c
      · obtain ⟨m, c', htries, howner⟩ := hwaits
        have hlt : l < m := (h.cpu c).tries_above hdisc htries howns
        obtain ⟨c'', l', hle, hresult⟩ := ih m hlt howner
        exact ⟨c'', l', hlt.le.trans hle, hresult⟩
      · exact ⟨c, l, le_rfl, howns, hwaits⟩

/-- In every state of every run, a processor that tries a lock finds it free, or another processor
owns this lock or one of a higher rank, waits for no lock itself, and can step. -/
theorem waiting_has_runner [PartialOrder Lock] [WellFoundedGT Lock]
    (hdisc : Disciplined client held) (hsingle : multicore = false → Subsingleton Id)
    (hlively : Lively client held) (h : Reachable multicore client d s) {c : Id} {l : Lock}
    (htries : (s.cpus c).top.Tries l) :
    (∀ c', ¬(s.cpus c').top.Owns held l) ∨ ∃ c' l', c' ≠ c ∧ l ≤ l' ∧
      (s.cpus c').top.Owns held l' ∧ ¬s.Waits held c' ∧
      ∃ locks d' cpu, CpuStep multicore client s.locks s.data (s.cpus c') locks d' cpu := by
  have hsafe := h.safe hdisc hsingle
  by_cases howned : ∃ c', (s.cpus c').top.Owns held l
  · obtain ⟨c', howns⟩ := howned
    obtain ⟨c'', l', hle, howner, hruns⟩ := hsafe.runner_above hdisc l howns
    refine Or.inr ⟨c'', l', ?_, hle, howner, hruns,
      (hsafe.cpu c'').owner_steps hlively howner s.data⟩
    rintro rfl
    exact hruns ⟨l, c', htries, howns⟩
  · exact Or.inl (not_exists.mp howned)

end Invariant

end Steps

end Sync
end Nyxis
