import Mathlib.Order.CompleteBooleanAlgebra
import Mathlib.Order.CompletePartialOrder
import Nyxis.Lib.Assigned
import Nyxis.Mm.Pfa
import Nyxis.Sync.Spinlock

/-!
# The frame allocator under its lock

{lit}`pfa_alloc` and {lit}`pfa_free` access the free list between {lit}`spin_lock` and
{lit}`spin_unlock`, one access after another, and {lit}`pfa_alloc` clears the frame after it has freed
the lock.  Here any number of processors and of interrupt handlers call them, and each access is a step
of its own.  A caller may write to the frames that it has been given, at any time.

Main results:

- Theorem {lit}`PfaOk.step`: the invariant is kept by every step.
- Theorem {lit}`frames_one_place`: a frame is free, or in one call, or with the callers, and never in
  two of these places.
-/

namespace Nyxis
namespace Mm

open Sync (Client Disciplined System Cpu CpuStep Step Reachable Thread Pc rflagsIf ifSet)

/-! ## The code as steps -/

/-- Where a thread is in the code of the allocator, with what it has read. -/
inductive PfaWork where
  /-- In neither of the functions. -/
  | idle
  /-- {lit}`pfa_alloc` before the lock. -/
  | alloc
  /-- It holds the lock, and tests {lit}`g_free_head`. -/
  | allocTest
  /-- The list is empty, and the lock is to be freed. -/
  | allocNone
  /-- The list is not empty, and {lit}`g_free_head` is to be read again. -/
  | allocRead
  /-- The first frame is known, its link is to be read. -/
  | allocTake (phys : Nat)
  /-- The link is known, and is to be stored in {lit}`g_free_head`. -/
  | allocLink (phys next : Nat)
  /-- {lit}`g_free_count` is to be read. -/
  | allocCount (phys : Nat)
  /-- {lit}`g_free_count` is to be stored. -/
  | allocStore (phys : Nat) (count : UInt64)
  /-- The lock is to be freed. -/
  | allocDone (phys : Nat)
  /-- The words of the frame below an index are cleared. -/
  | allocClear (phys i : Nat)
  /-- {lit}`pfa_free` before the lock. -/
  | free (phys : Nat)
  /-- {lit}`push_free_locked` is to read {lit}`g_free_head`. -/
  | freeRead (phys : Nat)
  /-- The link is to be stored in the frame. -/
  | freeLink (phys head : Nat)
  /-- {lit}`g_free_head` is to be stored. -/
  | freeHead (phys : Nat)
  /-- {lit}`g_free_count` is to be read. -/
  | freeCount
  /-- {lit}`g_free_count` is to be stored. -/
  | freeStore (count : UInt64)
  /-- The lock is to be freed. -/
  | freeDone

/-- Memory, and the frames that the callers have been given and have not freed. -/
structure PfaData where
  memory : Memory
  owned : Finset Nat

/-- The number of words of a frame. -/
def frameWords : Nat := 512

/-- The steps of the code other than those of the lock. -/
inductive PfaAct (pool : Set Nat) : PfaWork → PfaData → PfaWork → PfaData → Prop
  /-- Somebody calls {lit}`pfa_alloc`. -/
  | callAlloc (d : PfaData) : PfaAct pool .idle d .alloc d
  | testNone (d : PfaData) (h : d.memory.freeHead = 0) : PfaAct pool .allocTest d .allocNone d
  | testSome (d : PfaData) (h : d.memory.freeHead ≠ 0) : PfaAct pool .allocTest d .allocRead d
  | readHead (d : PfaData) : PfaAct pool .allocRead d (.allocTake d.memory.freeHead) d
  | readLink (phys : Nat) (d : PfaData) :
      PfaAct pool (.allocTake phys) d (.allocLink phys (d.memory.mem phys 0)) d
  | unlink (phys next : Nat) (d : PfaData) :
      PfaAct pool (.allocLink phys next) d (.allocCount phys)
        { d with memory := { d.memory with freeHead := next } }
  | readCount (phys : Nat) (d : PfaData) :
      PfaAct pool (.allocCount phys) d (.allocStore phys d.memory.freeCount) d
  | storeCount (phys : Nat) (count : UInt64) (d : PfaData) :
      PfaAct pool (.allocStore phys count) d (.allocDone phys)
        { d with memory := { d.memory with freeCount := count - 1 } }
  | clear (phys i : Nat) (d : PfaData) (h : i < frameWords) :
      PfaAct pool (.allocClear phys i) d (.allocClear phys (i + 1))
        { d with memory := d.memory.store phys i 0 }
  /-- {lit}`pfa_alloc` returns, and the frame is with the caller. -/
  | giveOut (phys : Nat) (d : PfaData) :
      PfaAct pool (.allocClear phys frameWords) d .idle { d with owned := insert phys d.owned }
  /-- Somebody calls {lit}`pfa_free` with a frame that it has been given. -/
  | callFree (phys : Nat) (d : PfaData) (h : phys ∈ d.owned)
      (hvalid : ¬(phys = 0 ∨ phys % pageSize ≠ 0)) :
      PfaAct pool .idle d (.free phys) { d with owned := d.owned.erase phys }
  | readOld (phys : Nat) (d : PfaData) :
      PfaAct pool (.freeRead phys) d (.freeLink phys d.memory.freeHead) d
  | storeLink (phys head : Nat) (d : PfaData) :
      PfaAct pool (.freeLink phys head) d (.freeHead phys)
        { d with memory := d.memory.store phys 0 head }
  | push (phys : Nat) (d : PfaData) :
      PfaAct pool (.freeHead phys) d .freeCount
        { d with memory := { d.memory with freeHead := phys } }
  | readLess (d : PfaData) : PfaAct pool .freeCount d (.freeStore d.memory.freeCount) d
  | storeMore (count : UInt64) (d : PfaData) :
      PfaAct pool (.freeStore count) d .freeDone
        { d with memory := { d.memory with freeCount := count + 1 } }
  /-- A caller writes to a frame that it has been given, or to memory that the allocator does not
  manage. -/
  | write (frame idx word : Nat) (d : PfaData) (h : frame ∈ d.owned ∨ frame ∉ pool) :
      PfaAct pool .idle d .idle { d with memory := d.memory.store frame idx word }

/-- Where the code calls {lit}`spin_lock`. -/
inductive PfaLocks : PfaWork → Unit → PfaWork → Prop
  | alloc : PfaLocks .alloc () .allocTest
  | free (phys : Nat) : PfaLocks (.free phys) () (.freeRead phys)

/-- Where the code calls {lit}`spin_unlock`. -/
inductive PfaUnlocks : PfaWork → Unit → PfaWork → Prop
  /-- {lit}`pfa_alloc` fails. -/
  | none : PfaUnlocks .allocNone () .idle
  | alloc (phys : Nat) : PfaUnlocks (.allocDone phys) () (.allocClear phys 0)
  | free : PfaUnlocks .freeDone () .idle

/-- The allocator as a client of {lit}`g_pfa_lock`. -/
def pfaClient (pool : Set Nat) : Client Unit PfaData PfaWork where
  locks := PfaLocks
  unlocks := PfaUnlocks
  acts := PfaAct pool
  masks := fun w => w = .idle
  starts := fun w => w = .idle
  ends := fun w => w = .idle

/-- The lock is held. -/
def PfaWork.inside : PfaWork → Bool
  | .idle | .alloc | .allocClear _ _ | .free _ => false
  | .allocTest | .allocNone | .allocRead | .allocTake _ | .allocLink _ _ | .allocCount _
  | .allocStore _ _ | .allocDone _ | .freeRead _ | .freeLink _ _ | .freeHead _ | .freeCount
  | .freeStore _ | .freeDone => true

/-- The locks that are held. -/
def pfaHeld (w : PfaWork) : List Unit :=
  if w.inside then [()] else []

variable {pool : Set Nat} {w w' : PfaWork} {d d' : PfaData}

theorem PfaAct.inside_eq (h : PfaAct pool w d w' d') : w'.inside = w.inside := by
  cases h <;> rfl

theorem pfa_disciplined (pool : Set Nat) : Disciplined (pfaClient pool) pfaHeld where
  locks := by
    intro w l w' h
    cases h with
    | alloc => exact ⟨rfl, fun m hm => by cases hm⟩
    | free phys => exact ⟨rfl, fun m hm => by cases hm⟩
  unlocks := by
    intro w l w' h
    cases h with
    | none => rfl
    | alloc phys => rfl
    | free => rfl
  acts := by
    intro w d w' d' h
    rw [pfaHeld, pfaHeld, PfaAct.inside_eq h]
  masks := by
    rintro w rfl
    rfl
  starts := by
    rintro w rfl
    rfl
  ends := by
    rintro w rfl
    rfl

/-- No call gets stuck inside the lock. -/
theorem pfa_lively (pool : Set Nat) : Sync.Lively (pfaClient pool) pfaHeld := by
  intro w d hheld
  cases w with
  | idle => exact absurd rfl hheld
  | alloc => exact absurd rfl hheld
  | allocTest =>
      by_cases hhead : d.memory.freeHead = 0
      · exact Or.inl ⟨_, _, .testNone d hhead⟩
      · exact Or.inl ⟨_, _, .testSome d hhead⟩
  | allocNone => exact Or.inr (Or.inr ⟨_, _, .none⟩)
  | allocRead => exact Or.inl ⟨_, _, .readHead d⟩
  | allocTake phys => exact Or.inl ⟨_, _, .readLink phys d⟩
  | allocLink phys next => exact Or.inl ⟨_, _, .unlink phys next d⟩
  | allocCount phys => exact Or.inl ⟨_, _, .readCount phys d⟩
  | allocStore phys count => exact Or.inl ⟨_, _, .storeCount phys count d⟩
  | allocDone phys => exact Or.inr (Or.inr ⟨_, _, .alloc phys⟩)
  | allocClear phys i => exact absurd rfl hheld
  | free phys => exact absurd rfl hheld
  | freeRead phys => exact Or.inl ⟨_, _, .readOld phys d⟩
  | freeLink phys head => exact Or.inl ⟨_, _, .storeLink phys head d⟩
  | freeHead phys => exact Or.inl ⟨_, _, .push phys d⟩
  | freeCount => exact Or.inl ⟨_, _, .readLess d⟩
  | freeStore count => exact Or.inl ⟨_, _, .storeMore count d⟩
  | freeDone => exact Or.inr (Or.inr ⟨_, _, .free⟩)

/-! ## The free list while it is changed -/

/-- The frame that a call has, which is neither in the free list nor with a caller. -/
def PfaWork.inFlight : PfaWork → Option Nat
  | .allocCount f | .allocStore f _ | .allocDone f | .allocClear f _ | .free f | .freeRead f
  | .freeLink f _ | .freeHead f => some f
  | .idle | .alloc | .allocTest | .allocNone | .allocRead | .allocTake _ | .allocLink _ _ | .freeCount
  | .freeStore _ | .freeDone => none

/-- The free list and its count, when nobody changes them. -/
structure Settled (m : Memory) (list : List Nat) : Prop where
  allocator : Allocator m list
  count : m.freeCount = UInt64.ofNat list.length

/-- The free list and its count, as the owner of the lock knows them. -/
def Shape (m : Memory) (list : List Nat) : PfaWork → Prop
  | .allocRead => Settled m list ∧ m.freeHead ≠ 0
  | .allocTake f => Settled m list ∧ m.freeHead = f ∧ f ≠ 0
  | .allocLink f next => Settled m list ∧ m.freeHead = f ∧ f ≠ 0 ∧ next = m.mem f 0
  | .allocCount _ => Allocator m list ∧ m.freeCount = UInt64.ofNat (list.length + 1)
  | .allocStore _ count => Allocator m list ∧ count = UInt64.ofNat (list.length + 1)
  | .freeLink _ head => Settled m list ∧ head = m.freeHead
  | .freeHead f => Settled m list ∧ m.mem f 0 = m.freeHead
  | .freeCount => Allocator m list ∧ m.freeCount + 1 = UInt64.ofNat list.length
  | .freeStore count => Allocator m list ∧ count + 1 = UInt64.ofNat list.length
  | .idle | .alloc | .allocTest | .allocNone | .allocDone _ | .allocClear _ _ | .free _ | .freeRead _
  | .freeDone => Settled m list

variable {m m' : Memory} {list : List Nat}

/-- A place in the code where nothing more is known. -/
def PfaWork.Plain (w : PfaWork) : Prop :=
  ∀ m list, Shape m list w ↔ Settled m list

theorem PfaLocks.plain {u : Unit} (h : PfaLocks w u w') : w.Plain ∧ w'.Plain := by
  cases h with
  | alloc => exact ⟨fun _ _ => Iff.rfl, fun _ _ => Iff.rfl⟩
  | free phys => exact ⟨fun _ _ => Iff.rfl, fun _ _ => Iff.rfl⟩

theorem PfaLocks.inFlight_eq {u : Unit} (h : PfaLocks w u w') : w'.inFlight = w.inFlight := by
  cases h <;> rfl

theorem PfaUnlocks.plain {u : Unit} (h : PfaUnlocks w u w') : w.Plain ∧ w'.Plain := by
  cases h with
  | none => exact ⟨fun _ _ => Iff.rfl, fun _ _ => Iff.rfl⟩
  | alloc phys => exact ⟨fun _ _ => Iff.rfl, fun _ _ => Iff.rfl⟩
  | free => exact ⟨fun _ _ => Iff.rfl, fun _ _ => Iff.rfl⟩

theorem PfaUnlocks.inFlight_eq {u : Unit} (h : PfaUnlocks w u w') : w'.inFlight = w.inFlight := by
  cases h <;> rfl

/-- The head of the list, where it is not empty. -/
theorem Allocator.head (h : Allocator m list) (hhead : m.freeHead ≠ 0) :
    ∃ fs, list = m.freeHead :: fs := by
  cases list with
  | nil => exact absurd h.list hhead
  | cons f fs =>
      have hf : m.freeHead = f := h.list.1
      exact ⟨fs, by rw [hf]⟩

theorem Allocator.congr (h : Allocator m list) (hhead : m'.freeHead = m.freeHead)
    (hmem : ∀ g ∈ list, m'.mem g = m.mem g) : Allocator m' list := by
  refine ⟨?_, h.nodup⟩
  rw [hhead]
  exact h.list.congr (fun g hg => congrFun (hmem g hg) 0)

theorem Settled.congr (h : Settled m list) (hhead : m'.freeHead = m.freeHead)
    (hcount : m'.freeCount = m.freeCount) (hmem : ∀ g ∈ list, m'.mem g = m.mem g) : Settled m' list :=
  ⟨h.allocator.congr hhead hmem, hcount.trans h.count⟩

/-- What the owner knows does not depend on frames that are neither free nor in its hands. -/
theorem Shape.congr (h : Shape m list w) (hhead : m'.freeHead = m.freeHead)
    (hcount : m'.freeCount = m.freeCount) (hmem : ∀ g ∈ list, m'.mem g = m.mem g)
    (hflight : ∀ g, w.inFlight = some g → m'.mem g = m.mem g) : Shape m' list w := by
  cases w with
  | allocRead => exact ⟨h.1.congr hhead hcount hmem, by rw [hhead]; exact h.2⟩
  | allocTake f => exact ⟨h.1.congr hhead hcount hmem, by rw [hhead]; exact h.2⟩
  | allocLink f next =>
      obtain ⟨hsettled, hf, hne, hnext⟩ := h
      obtain ⟨fs, hlist⟩ := hsettled.allocator.head (by rw [hf]; exact hne)
      have hsame : m'.mem f = m.mem f := by
        refine hmem f ?_
        rw [hlist, hf]
        exact List.mem_cons_self
      exact ⟨hsettled.congr hhead hcount hmem, hhead.trans hf, hne, by rw [hsame]; exact hnext⟩
  | allocCount f => exact ⟨h.1.congr hhead hmem, hcount.trans h.2⟩
  | allocStore f count => exact ⟨h.1.congr hhead hmem, h.2⟩
  | freeLink f head => exact ⟨h.1.congr hhead hcount hmem, h.2.trans hhead.symm⟩
  | freeHead f =>
      refine ⟨h.1.congr hhead hcount hmem, ?_⟩
      rw [hflight f rfl, hhead]
      exact h.2
  | freeCount => exact ⟨h.1.congr hhead hmem, by rw [hcount]; exact h.2⟩
  | freeStore count => exact ⟨h.1.congr hhead hmem, h.2⟩
  | idle => exact Settled.congr h hhead hcount hmem
  | alloc => exact Settled.congr h hhead hcount hmem
  | allocTest => exact Settled.congr h hhead hcount hmem
  | allocNone => exact Settled.congr h hhead hcount hmem
  | allocDone f => exact Settled.congr h hhead hcount hmem
  | allocClear f i => exact Settled.congr h hhead hcount hmem
  | free f => exact Settled.congr h hhead hcount hmem
  | freeRead f => exact Settled.congr h hhead hcount hmem
  | freeDone => exact Settled.congr h hhead hcount hmem

/-- The frame that a step of the code moves. -/
inductive Shifts (w w' : PfaWork) (owned owned' : Finset Nat) (list list' : List Nat) : Prop
  | stays (hflight : w'.inFlight = w.inFlight) (howned : owned' = owned) (hlist : list' = list)
  | unlinked (f : Nat) (hbefore : w.inFlight = none) (hafter : w'.inFlight = some f)
      (howned : owned' = owned) (hlist : list = f :: list') (hnot : f ∉ list')
  | given (f : Nat) (hbefore : w.inFlight = some f) (hafter : w'.inFlight = none)
      (howned : owned' = insert f owned) (hlist : list' = list)
  | taken (f : Nat) (hbefore : w.inFlight = none) (hafter : w'.inFlight = some f) (hmem : f ∈ owned)
      (howned : owned' = owned.erase f) (hlist : list' = list)
  | linked (f : Nat) (hbefore : w.inFlight = some f) (hafter : w'.inFlight = none)
      (howned : owned' = owned) (hlist : list' = f :: list)

/-- A step inside the lock. -/
theorem PfaAct.inside_step (h : PfaAct pool w d w' d') (hin : w.inside = true)
    (hshape : Shape d.memory list w)
    (hflight : ∀ f, w.inFlight = some f → f ∉ list ∧ f ≠ 0) :
    ∃ list', Shape d'.memory list' w' ∧ Shifts w w' d.owned d'.owned list list' := by
  cases h with
  | callAlloc => cases hin
  | testNone d hhead => exact ⟨list, hshape, .stays rfl rfl rfl⟩
  | testSome d hhead => exact ⟨list, ⟨hshape, hhead⟩, .stays rfl rfl rfl⟩
  | readHead => exact ⟨list, ⟨hshape.1, rfl, hshape.2⟩, .stays rfl rfl rfl⟩
  | readLink phys => exact ⟨list, ⟨hshape.1, hshape.2.1, hshape.2.2, rfl⟩, .stays rfl rfl rfl⟩
  | unlink phys next =>
      obtain ⟨hsettled, rfl, hne, rfl⟩ := hshape
      obtain ⟨fs, hlist⟩ := hsettled.allocator.head hne
      have hlinks := hsettled.allocator.list
      have hnodup := hsettled.allocator.nodup
      have hcount := hsettled.count
      rw [hlist] at hlinks hnodup hcount
      exact ⟨fs, ⟨⟨hlinks.2.2, (List.nodup_cons.mp hnodup).2⟩, hcount⟩,
        .unlinked d.memory.freeHead rfl rfl rfl hlist (List.nodup_cons.mp hnodup).1⟩
  | readCount phys => exact ⟨list, ⟨hshape.1, hshape.2⟩, .stays rfl rfl rfl⟩
  | storeCount phys count =>
      refine ⟨list, ⟨⟨hshape.1.list, hshape.1.nodup⟩, ?_⟩, .stays rfl rfl rfl⟩
      dsimp only
      rw [hshape.2, UInt64.ofNat_add]
      exact UInt64.add_sub_cancel _ _
  | clear phys i d hi => cases hin
  | giveOut phys => cases hin
  | callFree phys d hmem hvalid => cases hin
  | readOld phys => exact ⟨list, ⟨hshape, rfl⟩, .stays rfl rfl rfl⟩
  | storeLink phys head =>
      obtain ⟨hsettled, rfl⟩ := hshape
      obtain ⟨hnot, hne⟩ := hflight phys rfl
      refine ⟨list, ⟨hsettled.congr rfl rfl (fun g hg => ?_), d.memory.store_mem_same phys 0 _⟩,
        .stays rfl rfl rfl⟩
      refine Memory.store_mem_frame _ ?_
      rintro rfl
      exact hnot hg
  | push phys =>
      obtain ⟨hsettled, hlink⟩ := hshape
      obtain ⟨hnot, hne⟩ := hflight phys rfl
      refine ⟨phys :: list, ⟨⟨⟨rfl, hne, ?_⟩, List.nodup_cons.mpr ⟨hnot, hsettled.allocator.nodup⟩⟩, ?_⟩,
        .linked phys rfl rfl rfl rfl⟩
      · dsimp only
        rw [hlink]
        exact hsettled.allocator.list
      · dsimp only
        rw [hsettled.count, List.length_cons, UInt64.ofNat_add]
        rfl
  | readLess => exact ⟨list, ⟨hshape.1, hshape.2⟩, .stays rfl rfl rfl⟩
  | storeMore count => exact ⟨list, ⟨⟨hshape.1.list, hshape.1.nodup⟩, hshape.2⟩, .stays rfl rfl rfl⟩
  | write frame idx word d hw => cases hin

/-- A step outside the lock leaves the list and its count alone. -/
theorem PfaAct.outside_step (h : PfaAct pool w d w' d') (hout : w.inside = false) :
    d'.memory.freeHead = d.memory.freeHead ∧ d'.memory.freeCount = d.memory.freeCount ∧
      ∀ list, Shifts w w' d.owned d'.owned list list := by
  cases h with
  | callAlloc => exact ⟨rfl, rfl, fun _ => .stays rfl rfl rfl⟩
  | testNone d hhead => cases hout
  | testSome d hhead => cases hout
  | readHead => cases hout
  | readLink phys => cases hout
  | unlink phys next => cases hout
  | readCount phys => cases hout
  | storeCount phys count => cases hout
  | clear phys i d hi => exact ⟨rfl, rfl, fun _ => .stays rfl rfl rfl⟩
  | giveOut phys => exact ⟨rfl, rfl, fun _ => .given phys rfl rfl rfl rfl⟩
  | callFree phys d hmem hvalid => exact ⟨rfl, rfl, fun _ => .taken phys rfl rfl hmem rfl rfl⟩
  | readOld phys => cases hout
  | storeLink phys head => cases hout
  | push phys => cases hout
  | readLess => cases hout
  | storeMore count => cases hout
  | write frame idx word d hw => exact ⟨rfl, rfl, fun _ => .stays rfl rfl rfl⟩

/-- A step writes to the frame that its call has, or to one that is with the callers or that the
allocator does not manage. -/
theorem PfaAct.writes (h : PfaAct pool w d w' d') (g : Nat) :
    d'.memory.mem g = d.memory.mem g ∨ w.inFlight = some g ∨ g ∈ d.owned ∨ g ∉ pool := by
  have hstore : ∀ frame idx word, (frame = g → w.inFlight = some g ∨ g ∈ d.owned ∨ g ∉ pool) →
      (d.memory.store frame idx word).mem g = d.memory.mem g ∨
        w.inFlight = some g ∨ g ∈ d.owned ∨ g ∉ pool := by
    intro frame idx word hframe
    by_cases heq : frame = g
    · exact Or.inr (hframe heq)
    · exact Or.inl (Memory.store_mem_frame _ (Ne.symm heq))
  cases h with
  | clear phys i d hi =>
      refine hstore phys i 0 ?_
      rintro rfl
      exact Or.inl rfl
  | storeLink phys head =>
      refine hstore phys 0 head ?_
      rintro rfl
      exact Or.inl rfl
  | write frame idx word d hw =>
      refine hstore frame idx word ?_
      rintro rfl
      exact Or.inr hw
  | callAlloc => exact Or.inl rfl
  | testNone d hhead => exact Or.inl rfl
  | testSome d hhead => exact Or.inl rfl
  | readHead => exact Or.inl rfl
  | readLink phys => exact Or.inl rfl
  | unlink phys next => exact Or.inl rfl
  | readCount phys => exact Or.inl rfl
  | storeCount phys count => exact Or.inl rfl
  | giveOut phys => exact Or.inl rfl
  | callFree phys d hmem hvalid => exact Or.inl rfl
  | readOld phys => exact Or.inl rfl
  | push phys => exact Or.inl rfl
  | readLess => exact Or.inl rfl
  | storeMore count => exact Or.inl rfl

/-- A step clears the words of its frame one after another. -/
theorem PfaAct.clears (h : PfaAct pool w d w' d') {f i : Nat} (hw' : w' = .allocClear f i)
    (hclear : ∀ i, w = .allocClear f i → ∀ j < i, d.memory.mem f j = 0) :
    ∀ j < i, d'.memory.mem f j = 0 := by
  cases h with
  | clear phys k d hk =>
      cases hw'
      intro j hj
      rcases Nat.lt_or_eq_of_le (Nat.le_of_lt_succ hj) with hlt | rfl
      · exact (Memory.store_mem_of_ne _ (Or.inr (Nat.ne_of_lt hlt))).trans (hclear k rfl j hlt)
      · exact Memory.store_mem_same _ _ _ _
  | callAlloc => cases hw'
  | testNone d hhead => cases hw'
  | testSome d hhead => cases hw'
  | readHead => cases hw'
  | readLink phys => cases hw'
  | unlink phys next => cases hw'
  | readCount phys => cases hw'
  | storeCount phys count => cases hw'
  | giveOut phys => cases hw'
  | callFree phys d hmem hvalid => cases hw'
  | readOld phys => cases hw'
  | storeLink phys head => cases hw'
  | push phys => cases hw'
  | readLess => cases hw'
  | storeMore count => cases hw'
  | write frame idx word d hw => cases hw'

/-! ## The invariant of the system -/

/-- Who has a frame. -/
inductive Holder (Id : Type) where
  /-- The free list. -/
  | list
  /-- The callers. -/
  | callers
  /-- A call, in a thread of a processor. -/
  | call (c : Id) (k : Nat)

variable {Id : Type} {s s' : System Id Unit PfaData PfaWork} {list' : List Nat}

/-- The frame that a thread of a processor has. -/
def flight (cpu : Cpu Unit PfaWork) (k : Nat) : Option Nat :=
  if k ≤ cpu.depth then (cpu.threads k).work.inFlight else none

/-- Somebody has a frame. -/
def Has (s : System Id Unit PfaData PfaWork) (list : List Nat) (f : Nat) : Holder Id → Prop
  | .list => f ∈ list
  | .callers => f ∈ s.data.owned
  | .call c k => flight (s.cpus c) k = some f

/-- What the threads of a processor have cleared. -/
def Cleared (m : Memory) (cpu : Cpu Unit PfaWork) : Prop :=
  ∀ k f i, k ≤ cpu.depth → (cpu.threads k).work = .allocClear f i → ∀ j < i, m.mem f j = 0

/-- The invariant: every frame is in one place, the list has the shape that the owner of the lock knows
or is settled, and what has been cleared is clear. -/
structure PfaOk (pool : Set Nat) (s : System Id Unit PfaData PfaWork) (list : List Nat) : Prop where
  places : Assigned pool (Has s list)
  owner : ∀ c, (s.cpus c).top.Owns pfaHeld () → Shape s.data.memory list (s.cpus c).top.work
  settled : (∀ c, ¬(s.cpus c).top.Owns pfaHeld ()) → Settled s.data.memory list
  cleared : ∀ c, Cleared s.data.memory (s.cpus c)

theorem flight_goOn (cpu : Cpu Unit PfaWork) (flags : UInt64) (t : Thread Unit PfaWork) (k : Nat) :
    flight (cpu.goOn flags t) k = if k = cpu.depth then t.work.inFlight else flight cpu k := by
  rw [flight, flight, Cpu.goOn_depth]
  by_cases hk : k = cpu.depth
  · subst hk
    rw [if_pos le_rfl, if_pos rfl]
    exact congrArg (fun t : Thread Unit PfaWork => t.work.inFlight) (Cpu.goOn_top cpu flags t)
  · rw [if_neg hk]
    split
    next hle => rw [Cpu.goOn_threads cpu flags t (Nat.lt_of_le_of_ne hle hk)]
    next => rfl

theorem flight_top (cpu : Cpu Unit PfaWork) : flight cpu cpu.depth = cpu.top.work.inFlight :=
  if_pos le_rfl

/-- A thread that goes on with the same frame. -/
theorem flight_goOn_same (cpu : Cpu Unit PfaWork) (flags : UInt64) {t : Thread Unit PfaWork}
    (h : t.work.inFlight = cpu.top.work.inFlight) (k : Nat) :
    flight (cpu.goOn flags t) k = flight cpu k := by
  rw [flight_goOn]
  split
  next hk => rw [h, hk, flight_top]
  next => rfl

theorem flight_interrupted (cpu : Cpu Unit PfaWork) {w : PfaWork} (hw : w = .idle) (k : Nat) :
    flight (cpu.interrupted w) k = flight cpu k := by
  rw [flight, flight]
  change (if k ≤ cpu.depth + 1 then _ else _) = _
  rcases Nat.lt_trichotomy k (cpu.depth + 1) with hlt | rfl | hgt
  · have hle := Nat.le_of_lt_succ hlt
    rw [if_pos hlt.le, if_pos hle, Cpu.interrupted_threads cpu w hle]
  · rw [if_pos le_rfl, if_neg (Nat.not_succ_le_self _)]
    have htop := Cpu.interrupted_top cpu w
    rw [Cpu.top] at htop
    change ((cpu.interrupted w).threads (cpu.interrupted w).depth).work.inFlight = none
    rw [htop, hw]
    rfl
  · rw [if_neg (Nat.not_le_of_lt hgt), if_neg (Nat.not_le_of_lt ((Nat.lt_succ_self _).trans hgt))]

theorem flight_returned (cpu : Cpu Unit PfaWork) (hdepth : cpu.depth ≠ 0)
    (hw : cpu.top.work = .idle) (k : Nat) : flight cpu.returned k = flight cpu k := by
  rw [flight, flight]
  change (if k ≤ cpu.depth - 1 then (cpu.threads k).work.inFlight else none) = _
  by_cases hk : k = cpu.depth
  · subst hk
    rw [if_neg (by omega), if_pos le_rfl]
    change none = cpu.top.work.inFlight
    rw [hw]
    rfl
  · have hiff : k ≤ cpu.depth - 1 ↔ k ≤ cpu.depth := by omega
    rw [if_congr hiff rfl rfl]

variable [DecidableEq Id] {c : Id} {locks locks' : Unit → Sync.Spinlock} {cpu' : Cpu Unit PfaWork}
variable {multicore : Bool}

/-- Threads that keep their frames. -/
theorem has_same (hflight : ∀ k, flight cpu' k = flight (s.cpus c) k) (f : Nat) (h : Holder Id) :
    Has ⟨locks', Function.update s.cpus c cpu', s.data⟩ list f h ↔ Has s list f h := by
  cases h with
  | list => exact Iff.rfl
  | callers => exact Iff.rfl
  | call c' k =>
      rw [Has, Has]
      dsimp only
      by_cases hc : c' = c
      · subst hc
        rw [Function.update_self, hflight]
      · rw [Function.update_of_ne hc]

/-- The free list, the callers, or one thread. -/
def Holder.Near (c : Id) (k : Nat) (h : Holder Id) : Prop :=
  h = .list ∨ h = .callers ∨ h = .call c k

omit [DecidableEq Id] in
theorem Holder.Near.ne_call {c' : Id} {k k' : Nat} {h : Holder Id} (hnear : h.Near c k)
    (hne : c' ≠ c ∨ k' ≠ k) : h ≠ .call c' k' := by
  rintro rfl
  rcases hnear with hno | hno | heq
  · cases hno
  · cases hno
  · cases heq
    exact hne.elim (fun hno => hno rfl) (fun hno => hno rfl)

/-- The running thread of a processor passes a frame to the list or to the callers, or gets one from
there, and nothing else is moved. -/
theorem places_pass (h : Assigned pool (Has s list)) {flags : UInt64} {t : Thread Unit PfaWork}
    {d' : PfaData} {f : Nat} {source target : Holder Id} (hf : Has s list f source)
    (hsource : source.Near c (s.cpus c).depth) (htarget : target.Near c (s.cpus c).depth)
    (hlist : ∀ g, g ∈ list' ↔ (g ≠ f ∧ g ∈ list) ∨ (g = f ∧ .list = target))
    (howned : ∀ g, g ∈ d'.owned ↔ (g ≠ f ∧ g ∈ s.data.owned) ∨ (g = f ∧ .callers = target))
    (hflight : ∀ g, t.work.inFlight = some g ↔ (g ≠ f ∧ (s.cpus c).top.work.inFlight = some g) ∨
      (g = f ∧ .call c (s.cpus c).depth = target)) :
    Assigned pool (Has ⟨locks', Function.update s.cpus c ((s.cpus c).goOn flags t), d'⟩ list') := by
  refine h.move target hf (fun g b => ?_)
  cases b with
  | list => exact hlist g
  | callers => exact howned g
  | call c' k =>
      have hother : (c' ≠ c ∨ k ≠ (s.cpus c).depth) →
          (Has s list g (.call c' k) ↔ (g ≠ f ∧ Has s list g (.call c' k)) ∨
            (g = f ∧ Holder.call c' k = target)) := by
        intro hne
        rw [or_iff_left (fun hno => htarget.ne_call hne hno.2.symm)]
        constructor
        · exact fun hg => ⟨(h.ne_of_ne hf hg (hsource.ne_call hne)).symm, hg⟩
        · exact And.right
      rw [Has]
      dsimp only
      by_cases hc : c' = c
      · subst hc
        rw [Function.update_self, flight_goOn]
        by_cases hk : k = (s.cpus c').depth
        · subst hk
          rw [if_pos rfl, hflight, Has, flight_top]
        · rw [if_neg hk]
          exact hother (Or.inr hk)
      · rw [Function.update_of_ne hc]
        exact hother (Or.inl hc)

/-- A member of a set that loses nothing else and a place that gets nothing. -/
theorem mem_iff_of_not_mem {P P' : Nat → Prop} {f : Nat} {q : Prop} (hq : ¬q) (hP : ¬P f)
    (hsame : ∀ g, P' g ↔ P g) (g : Nat) : P' g ↔ (g ≠ f ∧ P g) ∨ (g = f ∧ q) := by
  rw [or_iff_left (fun hno => hq hno.2), hsame]
  constructor
  · intro hg
    refine ⟨?_, hg⟩
    rintro rfl
    exact hP hg
  · exact And.right

/-- A step of a thread moves one frame at most. -/
theorem places_shift (h : Assigned pool (Has s list)) {flags : UInt64} {t : Thread Unit PfaWork}
    {d' : PfaData}
    (hshift : Shifts (s.cpus c).top.work t.work s.data.owned d'.owned list list') :
    Assigned pool (Has ⟨locks', Function.update s.cpus c ((s.cpus c).goOn flags t), d'⟩ list') := by
  have hnear : (Holder.call c (s.cpus c).depth).Near c (s.cpus c).depth := Or.inr (Or.inr rfl)
  have htop : ∀ {f}, (s.cpus c).top.work.inFlight = some f → Has s list f (.call c (s.cpus c).depth) :=
    fun hf => (flight_top _).trans hf
  cases hshift with
  | stays hflight howned hlist =>
      subst hlist
      refine h.congr (fun f b => ?_)
      have hsame : Has ⟨locks', Function.update s.cpus c ((s.cpus c).goOn flags t), s.data⟩ list' f b ↔
          Has s list' f b := has_same (flight_goOn_same (s.cpus c) flags hflight) f b
      cases b with
      | list => exact Iff.rfl
      | callers => rw [Has, Has, howned]
      | call c' k => exact hsame
  | unlinked f hbefore hafter howned hlist hnot =>
      subst hlist
      have hf : Has s (f :: list') f (.list : Holder Id) := List.mem_cons_self
      refine places_pass h hf (Or.inl rfl) hnear (fun g => ?_) (mem_iff_of_not_mem ?_ ?_ ?_) (fun g => ?_)
      · rw [List.mem_cons, or_iff_left (fun hno => by cases hno.2)]
        constructor
        · intro hg
          refine ⟨?_, Or.inr hg⟩
          rintro rfl
          exact hnot hg
        · rintro ⟨hne, rfl | hg⟩
          · exact absurd rfl hne
          · exact hg
      · intro hno
        cases hno
      · intro hno
        cases h.unique f .callers .list hno hf
      · intro g
        rw [howned]
      · rw [hbefore, hafter, Option.some.injEq, and_iff_left rfl,
          or_iff_right (fun hno => by cases hno.2), eq_comm]
  | given f hbefore hafter howned hlist =>
      subst hlist
      have hf := htop hbefore
      refine places_pass h hf hnear (Or.inr (Or.inl rfl)) (mem_iff_of_not_mem ?_ ?_ (fun g => Iff.rfl))
        (fun g => ?_) (fun g => ?_)
      · intro hno
        cases hno
      · intro hno
        cases h.unique f .list _ hno hf
      · rw [howned, Finset.mem_insert, and_iff_left rfl]
        constructor
        · rintro (rfl | hg)
          · exact Or.inr rfl
          · by_cases heq : g = f
            · exact Or.inr heq
            · exact Or.inl ⟨heq, hg⟩
        · rintro (⟨-, hg⟩ | rfl)
          · exact Or.inr hg
          · exact Or.inl rfl
      · rw [hbefore, hafter, or_iff_left (fun hno => by cases hno.2)]
        constructor
        · intro hno
          cases hno
        · rintro ⟨hne, heq⟩
          exact absurd (Option.some.inj heq).symm hne
  | taken f hbefore hafter hmem howned hlist =>
      subst hlist
      have hf : Has s list' f (.callers : Holder Id) := hmem
      refine places_pass h hf (Or.inr (Or.inl rfl)) hnear (mem_iff_of_not_mem ?_ ?_ (fun g => Iff.rfl))
        (fun g => ?_) (fun g => ?_)
      · intro hno
        cases hno
      · intro hno
        cases h.unique f .list .callers hno hf
      · rw [howned, Finset.mem_erase, or_iff_left (fun hno => by cases hno.2)]
      · rw [hbefore, hafter, Option.some.injEq, and_iff_left rfl,
          or_iff_right (fun hno => by cases hno.2), eq_comm]
  | linked f hbefore hafter howned hlist =>
      subst hlist
      have hf := htop hbefore
      refine places_pass h hf hnear (Or.inl rfl) (fun g => ?_) (mem_iff_of_not_mem ?_ ?_ ?_) (fun g => ?_)
      · rw [List.mem_cons, and_iff_left rfl]
        constructor
        · rintro (rfl | hg)
          · exact Or.inr rfl
          · by_cases heq : g = f
            · exact Or.inr heq
            · exact Or.inl ⟨heq, hg⟩
        · rintro (⟨-, hg⟩ | rfl)
          · exact Or.inr hg
          · exact Or.inl rfl
      · intro hno
        cases hno
      · intro hno
        cases h.unique f .callers _ hno hf
      · intro g
        rw [howned]
      · rw [hbefore, hafter, or_iff_left (fun hno => by cases hno.2)]
        constructor
        · intro hno
          cases hno
        · rintro ⟨hne, heq⟩
          exact absurd (Option.some.inj heq).symm hne

/-! ## One step -/

omit [DecidableEq Id] in
/-- A running thread owns the lock where the code holds it. -/
theorem owns_running {t : Thread Unit PfaWork} (h : t.pc.taken = none) (u : Unit) :
    t.Owns pfaHeld u ↔ t.work.inside = true := by
  rw [Thread.owns_iff h, pfaHeld]
  cases t.work.inside with
  | true => simp
  | false => simp

omit [DecidableEq Id] in
theorem cleared_goOn {cpu : Cpu Unit PfaWork} {flags : UInt64} {t : Thread Unit PfaWork}
    (h : ∀ k f i, k < cpu.depth → (cpu.threads k).work = .allocClear f i → ∀ j < i, m.mem f j = 0)
    (htop : ∀ f i, t.work = .allocClear f i → ∀ j < i, m.mem f j = 0) :
    Cleared m (cpu.goOn flags t) := by
  intro k f i hk hwork
  rw [Cpu.goOn_depth] at hk
  rcases Nat.lt_or_eq_of_le hk with hlt | rfl
  · rw [Cpu.goOn_threads cpu flags t hlt] at hwork
    exact h k f i hlt hwork
  · have heq := Cpu.goOn_top cpu flags t
    rw [Cpu.top, Cpu.goOn_depth] at heq
    rw [heq] at hwork
    exact htop f i hwork

/-- A step that changes the lock or the place of a thread, and not the data. -/
theorem PfaOk.quiet (h : PfaOk pool s list) (hsafe : Sync.Safe multicore (pfaClient pool) pfaHeld s)
    (hsingle : multicore = false → Subsingleton Id)
    (howners : Sync.Owners multicore pfaHeld s.locks (s.cpus c) locks' cpu')
    (hflight : ∀ k, flight cpu' k = flight (s.cpus c) k) (hclear : Cleared s.data.memory cpu')
    (hkeep : (s.cpus c).top.Owns pfaHeld () → cpu'.top.Owns pfaHeld () →
      Shape s.data.memory list (s.cpus c).top.work → Shape s.data.memory list cpu'.top.work)
    (htake : ¬(s.cpus c).top.Owns pfaHeld () → cpu'.top.Owns pfaHeld () → cpu'.top.work.Plain)
    (hdrop : (s.cpus c).top.Owns pfaHeld () → ¬cpu'.top.Owns pfaHeld () →
      (s.cpus c).top.work.Plain) :
    PfaOk pool ⟨locks', Function.update s.cpus c cpu', s.data⟩ list where
  places := h.places.congr (fun f b => has_same hflight f b)
  owner := by
    intro c' howns
    dsimp only at howns ⊢
    by_cases hc : c' = c
    · rw [hc, Function.update_self] at howns ⊢
      by_cases hold : (s.cpus c).top.Owns pfaHeld ()
      · exact hkeep hold howns (h.owner c hold)
      · refine (htake hold howns _ _).mpr (h.settled (fun c'' => ?_))
        by_cases hc'' : c'' = c
        · rw [hc'']
          exact hold
        · cases howners with
          | same hsame _ _ => exact absurd ((hsame ()).mp howns) hold
          | take l _ _ hlocked => exact hsafe.not_owned hsingle hc'' (fun hmulti => (hlocked hmulti).1)
          | drop l howner _ _ _ => exact absurd howner hold
    · rw [Function.update_of_ne hc] at howns ⊢
      exact h.owner c' howns
  settled := by
    intro hnone
    by_cases hold : (s.cpus c).top.Owns pfaHeld ()
    · refine (hdrop hold ?_ _ _).mp (h.owner c hold)
      have hc := hnone c
      dsimp only at hc
      rwa [Function.update_self] at hc
    · refine h.settled (fun c' => ?_)
      by_cases hc : c' = c
      · rw [hc]
        exact hold
      · have hc' := hnone c'
        dsimp only at hc'
        rwa [Function.update_of_ne hc] at hc'
  cleared := by
    intro c'
    dsimp only
    by_cases hc : c' = c
    · rw [hc, Function.update_self]
      exact hclear
    · rw [Function.update_of_ne hc]
      exact h.cleared c'

/-- A step of the code on the data. -/
theorem PfaOk.act (h : PfaOk pool s list) (hsafe : Sync.Safe multicore (pfaClient pool) pfaHeld s)
    (hzero : 0 ∉ pool) {flags : UInt64} (hpc : (s.cpus c).top.pc = .running)
    (hact : PfaAct pool (s.cpus c).top.work s.data w d') :
    ∃ list', PfaOk pool ⟨s.locks, Function.update s.cpus c
      ((s.cpus c).goOn flags ⟨.running, w, (s.cpus c).top.wanted⟩), d'⟩ list' := by
  have htop : ∀ f, (s.cpus c).top.work.inFlight = some f → Has s list f (.call c (s.cpus c).depth) :=
    fun f hf => (flight_top _).trans hf
  -- what is not with the callers and not with this thread is not written to
  have hsame : ∀ g b, Has s list g b → b ≠ .callers → b ≠ .call c (s.cpus c).depth →
      d'.memory.mem g = s.data.memory.mem g := by
    intro g b hg hcallers hcall
    rcases hact.writes g with hmem | hflight | howned | hpool
    · exact hmem
    · exact absurd (h.places.unique g b _ hg (htop g hflight)) hcall
    · exact absurd (h.places.unique g b .callers hg howned) hcallers
    · exact absurd (h.places.mem g b hg) hpool
  have hothers : ∀ c' k f i, k ≤ (s.cpus c').depth → (c' ≠ c ∨ k ≠ (s.cpus c).depth) →
      ((s.cpus c').threads k).work = .allocClear f i → ∀ j < i, d'.memory.mem f j = 0 := by
    intro c' k f i hk hne hwork j hj
    have hhas : Has s list f (.call c' k) := by
      rw [Has, flight, if_pos hk, hwork]
      rfl
    have hcall : Holder.call c' k ≠ .call c (s.cpus c).depth := by
      intro heq
      cases heq
      exact hne.elim (fun hno => hno rfl) (fun hno => hno rfl)
    rw [hsame f _ hhas (fun hno => by cases hno) hcall]
    exact h.cleared c' k f i hk hwork j hj
  have hcleared : ∀ c', Cleared d'.memory (Function.update s.cpus c
      ((s.cpus c).goOn flags ⟨.running, w, (s.cpus c).top.wanted⟩) c') := by
    intro c'
    by_cases hc : c' = c
    · rw [hc, Function.update_self]
      refine cleared_goOn (fun k f i hk => hothers c k f i hk.le (Or.inr (Nat.ne_of_lt hk))) ?_
      exact fun f i hwork => hact.clears hwork (fun i hwork => h.cleared c _ f i le_rfl hwork)
    · rw [Function.update_of_ne hc]
      exact fun k f i hk => hothers c' k f i hk (Or.inl hc)
  have howns : ∀ u, (s.cpus c).top.Owns pfaHeld u ↔ (s.cpus c).top.work.inside = true :=
    owns_running (by rw [hpc]; rfl)
  have howns' : ∀ u, ((s.cpus c).goOn flags ⟨.running, w, (s.cpus c).top.wanted⟩).top.Owns pfaHeld u ↔
      (s.cpus c).top.work.inside = true := by
    intro u
    rw [Cpu.goOn_top, owns_running rfl, ← hact.inside_eq]
  cases hin : (s.cpus c).top.work.inside with
  | true =>
      have howner := (howns ()).mpr hin
      obtain ⟨list', hshape, hshift⟩ := hact.inside_step hin (h.owner c howner) (fun f hf => by
        refine ⟨fun hmem => ?_, ?_⟩
        · cases h.places.unique f .list _ hmem (htop f hf)
        · rintro rfl
          exact hzero (h.places.mem 0 _ (htop 0 hf)))
      refine ⟨list', places_shift h.places hshift, fun c' hc' => ?_, fun hnone => ?_, hcleared⟩
      · dsimp only at hc' ⊢
        by_cases hc : c' = c
        · rw [hc, Function.update_self, Cpu.goOn_top]
          exact hshape
        · rw [Function.update_of_ne hc] at hc'
          exact absurd (hsafe.unique c' c () hc' howner) hc
      · have hno := hnone c
        dsimp only at hno
        rw [Function.update_self, howns'] at hno
        exact absurd hin hno
  | false =>
      obtain ⟨hhead, hcount, hshift⟩ := hact.outside_step hin
      have hnot : ¬(s.cpus c).top.Owns pfaHeld () := by
        rw [howns, hin]
        exact Bool.false_ne_true
      have hlist : ∀ g ∈ list, d'.memory.mem g = s.data.memory.mem g :=
        fun g hg => hsame g .list hg (fun hno => by cases hno) (fun hno => by cases hno)
      refine ⟨list, places_shift h.places (hshift list), fun c' hc' => ?_, fun hnone => ?_, hcleared⟩
      · dsimp only at hc' ⊢
        by_cases hc : c' = c
        · rw [hc, Function.update_self, howns', hin] at hc'
          cases hc'
        · rw [Function.update_of_ne hc] at hc' ⊢
          refine (h.owner c' hc').congr hhead hcount hlist (fun g hg => ?_)
          refine hsame g (.call c' (s.cpus c').depth) ((flight_top _).trans hg)
            (fun hno => by cases hno) (fun heq => ?_)
          cases heq
          exact hc rfl
      · refine (h.settled (fun c' => ?_)).congr hhead hcount hlist
        by_cases hc : c' = c
        · rw [hc]
          exact hnot
        · have hc' := hnone c'
          dsimp only at hc'
          rwa [Function.update_of_ne hc] at hc'

/-- A thread that goes on in the code of the lock, with the same work. -/
theorem PfaOk.same_work (h : PfaOk pool s list)
    (hsafe : Sync.Safe multicore (pfaClient pool) pfaHeld s)
    (hsingle : multicore = false → Subsingleton Id) {flags : UInt64} {t : Thread Unit PfaWork}
    (howners : Sync.Owners multicore pfaHeld s.locks (s.cpus c) locks' ((s.cpus c).goOn flags t))
    (hwork : t.work = (s.cpus c).top.work) (hpc : (s.cpus c).top.pc.taken = none)
    (htake : t.pc.taken = none ∨ t.work.Plain) :
    PfaOk pool ⟨locks', Function.update s.cpus c ((s.cpus c).goOn flags t), s.data⟩ list := by
  have hinside : (s.cpus c).top.Owns pfaHeld () → ((s.cpus c).goOn flags t).top.Owns pfaHeld () := by
    intro howns
    rw [Thread.owns_iff hpc] at howns
    rw [Cpu.goOn_top]
    exact Or.inl (hwork ▸ howns)
  refine h.quiet hsafe hsingle howners (flight_goOn_same _ _ (by rw [hwork])) ?_ ?_ ?_ ?_
  · refine cleared_goOn (fun k f i hk => h.cleared c k f i hk.le) (fun f i ht => ?_)
    rw [hwork] at ht
    exact h.cleared c _ f i le_rfl ht
  · intro _ _ hshape
    rw [Cpu.goOn_top, hwork]
    exact hshape
  · intro hno howns
    rw [Cpu.goOn_top] at howns ⊢
    rcases htake with hnone | hplain
    · rw [Thread.owns_iff hnone, hwork] at howns
      exact absurd (Or.inl howns) hno
    · exact hplain
  · exact fun howns hno => absurd (hinside howns) hno

/-- A thread that goes on in the code of the lock, and calls it or returns from it. -/
theorem PfaOk.new_work (h : PfaOk pool s list)
    (hsafe : Sync.Safe multicore (pfaClient pool) pfaHeld s)
    (hsingle : multicore = false → Subsingleton Id) {flags : UInt64} {t : Thread Unit PfaWork}
    (howners : Sync.Owners multicore pfaHeld s.locks (s.cpus c) locks' ((s.cpus c).goOn flags t))
    (hflight : t.work.inFlight = (s.cpus c).top.work.inFlight)
    (hplain : (s.cpus c).top.work.Plain ∧ t.work.Plain)
    (hclear : ∀ f i, t.work = .allocClear f i → i = 0) :
    PfaOk pool ⟨locks', Function.update s.cpus c ((s.cpus c).goOn flags t), s.data⟩ list := by
  refine h.quiet hsafe hsingle howners (flight_goOn_same _ _ hflight) ?_ ?_ ?_ ?_
  · refine cleared_goOn (fun k f i hk => h.cleared c k f i hk.le) (fun f i ht j hj => ?_)
    rw [hclear f i ht] at hj
    exact absurd hj (Nat.not_lt_zero j)
  · intro _ _ hshape
    rw [Cpu.goOn_top]
    exact (hplain.2 _ _).mpr ((hplain.1 _ _).mp hshape)
  · intro _ _
    rw [Cpu.goOn_top]
    exact hplain.2
  · exact fun _ _ => hplain.1

/-- Every step of the system keeps the invariant. -/
theorem PfaOk.step (h : PfaOk pool s list) (hsafe : Sync.Safe multicore (pfaClient pool) pfaHeld s)
    (hsingle : multicore = false → Subsingleton Id) (hzero : 0 ∉ pool)
    (hstep : Step multicore (pfaClient pool) s s') : ∃ list', PfaOk pool s' list' := by
  cases hstep with
  | cpu c locks d cpu hcpu =>
      have howners := hcpu.owners (pfa_disciplined pool) (hsafe.cpu c)
      have hok := (hsafe.cpu c).pc
      cases hcpu with
      | act w d' flags hpc hact hflags => exact h.act hsafe hzero hpc hact
      | mask flags hpc hmask =>
          exact ⟨list, h.same_work hsafe hsingle howners rfl (by rw [hpc]; rfl) (Or.inl rfl)⟩
      | readFlags l w hpc hlock =>
          exact ⟨list, h.same_work hsafe hsingle howners rfl (by rw [hpc]; rfl) (Or.inl rfl)⟩
      | clearFlag l f hpc =>
          exact ⟨list, h.same_work hsafe hsingle howners rfl (by rw [hpc]; rfl) (Or.inl rfl)⟩
      | cmpxchg l f hmulti hpc =>
          rw [hpc] at hok
          obtain ⟨⟨w, hlock⟩, -⟩ := hok
          exact ⟨list, h.same_work hsafe hsingle howners rfl (by rw [hpc]; rfl)
            (Or.inr (PfaLocks.plain hlock).1)⟩
      | spin l f hpc =>
          refine ⟨list, h.same_work hsafe hsingle howners rfl (by rw [hpc]; rfl) (Or.inl ?_)⟩
          dsimp only
          split
          next => rfl
          next => rfl
      | single l f hmulti hpc =>
          rw [hpc] at hok
          obtain ⟨⟨w, hlock⟩, -⟩ := hok
          exact ⟨list, h.same_work hsafe hsingle howners rfl (by rw [hpc]; rfl)
            (Or.inr (PfaLocks.plain hlock).1)⟩
      | storeFlags l f w hpc hlock =>
          refine ⟨list, h.new_work hsafe hsingle howners (PfaLocks.inFlight_eq hlock)
            (PfaLocks.plain hlock) (fun f i hw => ?_)⟩
          dsimp only at hw
          rw [hw] at hlock
          generalize (s.cpus c).top.work = old at hlock
          cases hlock
      | loadFlags l w hpc hunlock =>
          exact ⟨list, h.same_work hsafe hsingle howners rfl (by rw [hpc]; rfl) (Or.inl rfl)⟩
      | setFree l f w hpc hunlock =>
          refine ⟨list, h.new_work hsafe hsingle howners (PfaUnlocks.inFlight_eq hunlock)
            (PfaUnlocks.plain hunlock) (fun f i hw => ?_)⟩
          dsimp only at hw
          rw [hw] at hunlock
          generalize (s.cpus c).top.work = old at hunlock
          cases hunlock
          rfl
      | restore f hpc =>
          exact ⟨list, h.same_work hsafe hsingle howners rfl (by rw [hpc]; rfl) (Or.inl rfl)⟩
      | interrupt w hflags hstarts =>
          have hidle : w = .idle := hstarts
          have hnot : ¬((s.cpus c).interrupted w).top.Owns pfaHeld () := by
            rw [Cpu.interrupted_top, owns_running rfl, hidle]
            exact Bool.false_ne_true
          refine ⟨list, h.quiet hsafe hsingle howners (flight_interrupted _ hidle)
            (fun k f i hk hwork => ?_) (fun _ howns => absurd howns hnot)
            (fun _ howns => absurd howns hnot)
            (fun howns => absurd howns (((hsafe.cpu c).resting hflags).not_owns ()))⟩
          rcases Nat.lt_or_eq_of_le hk with hlt | rfl
          · have hle := Nat.le_of_lt_succ hlt
            rw [Cpu.interrupted_threads _ w hle] at hwork
            exact h.cleared c k f i hle hwork
          · have htop := Cpu.interrupted_top (s.cpus c) w
            rw [Cpu.top] at htop
            rw [htop, hidle] at hwork
            cases hwork
      | iret hdepth hpc hends =>
          have hidle : (s.cpus c).top.work = .idle := hends
          have hnot : ¬(s.cpus c).top.Owns pfaHeld () := by
            rw [owns_running (by rw [hpc]; rfl), hidle]
            exact Bool.false_ne_true
          have hrest := (hsafe.cpu c).below ((s.cpus c).depth - 1)
            (Nat.sub_lt (Nat.pos_of_ne_zero hdepth) Nat.one_pos)
          refine ⟨list, h.quiet hsafe hsingle howners (flight_returned _ hdepth hidle)
            (fun k f i hk hwork => h.cleared c k f i (hk.trans (Nat.sub_le _ _)) hwork)
            (fun howns => absurd howns hnot) (fun _ howns => absurd howns (hrest.not_owns ()))
            (fun howns => absurd howns hnot)⟩

/-! ## All runs -/

/-- What the allocator starts with: a list of frames of the pool, and the rest with the callers. -/
structure PfaStarts (pool : Set Nat) (d : PfaData) (list : List Nat) : Prop where
  settled : Settled d.memory list
  zero : 0 ∉ pool
  pool : ∀ f, f ∈ pool ↔ f ∈ list ∨ f ∈ d.owned
  apart : ∀ f ∈ list, f ∉ d.owned

omit [DecidableEq Id] in
theorem PfaStarts.ok (h : PfaStarts pool d list) (hstarts : Sync.Starts (pfaClient pool) s)
    (hdata : s.data = d) : PfaOk pool s list := by
  have hwork : ∀ c k, k ≤ (s.cpus c).depth → ((s.cpus c).threads k).work = .idle := by
    intro c k hk
    rw [hstarts.depth c, Nat.le_zero] at hk
    have hidle : (s.cpus c).top.work = .idle := hstarts.work c
    rwa [Cpu.top, hstarts.depth c, ← hk] at hidle
  have hnone : ∀ c k, flight (s.cpus c) k = none := by
    intro c k
    rw [flight]
    split
    next hk =>
      rw [hwork c k hk]
      rfl
    next => rfl
  refine ⟨⟨fun f b b' hb hb' => ?_, fun f b hb => ?_, fun f hf => ?_⟩, fun c howns => ?_,
    fun _ => hdata ▸ h.settled, fun c k f i hk hclear => ?_⟩
  · cases b with
    | list =>
        cases b' with
        | list => rfl
        | callers => exact absurd (hdata ▸ hb') (h.apart f hb)
        | call c k =>
            rw [Has, hnone] at hb'
            cases hb'
    | callers =>
        cases b' with
        | list => exact absurd (hdata ▸ hb) (h.apart f hb')
        | callers => rfl
        | call c k =>
            rw [Has, hnone] at hb'
            cases hb'
    | call c k =>
        rw [Has, hnone] at hb
        cases hb
  · cases b with
    | list => exact (h.pool f).mpr (Or.inl hb)
    | callers => exact (h.pool f).mpr (Or.inr (hdata ▸ hb))
    | call c k =>
        rw [Has, hnone] at hb
        cases hb
  · rcases (h.pool f).mp hf with hlist | howned
    · exact ⟨.list, hlist⟩
    · exact ⟨.callers, by rw [Has, hdata]; exact howned⟩
  · rw [owns_running (by rw [hstarts.pc c]; rfl)] at howns
    rw [Cpu.top, hwork c _ le_rfl] at howns
    cases howns
  · rw [hwork c k hk] at hclear
    cases hclear

/-- In every state that any number of processors and of interrupt handlers reach in any order of their
steps: every frame of the allocator is in exactly one place, which is the free list, the callers, or
one call of one thread; the frame that a call of {lit}`pfa_alloc` is about to return is zero; and
whenever nobody owns the lock, the links in memory spell out the list, without a repetition, and the
count is its length. -/
theorem frames_one_place (hsingle : multicore = false → Subsingleton Id)
    (hstarts : PfaStarts pool d list) (h : Reachable multicore (pfaClient pool) d s) :
    ∃ now : List Nat, Assigned pool (Has s now) ∧
      (∀ c k f, k ≤ (s.cpus c).depth → ((s.cpus c).threads k).work = .allocClear f frameWords →
        ∀ j < frameWords, s.data.memory.mem f j = 0) ∧
      ((∀ c, ¬(s.cpus c).top.Owns pfaHeld ()) → Settled s.data.memory now) := by
  have hok : ∃ now, PfaOk pool s now := by
    induction h with
    | start hsystem hdata => exact ⟨list, hstarts.ok hsystem hdata⟩
    | step hreach hstep ih =>
        obtain ⟨now, hnow⟩ := ih
        exact hnow.step (hreach.safe (pfa_disciplined pool) hsingle) hsingle hstarts.zero hstep
  obtain ⟨now, hnow⟩ := hok
  exact ⟨now, hnow.places, fun c k f hk hwork => hnow.cleared c k f frameWords hk hwork, hnow.settled⟩

/-! ## Two processors -/

/-- Two free frames. -/
def frameData : PfaData where
  memory := ⟨fun f _ => if f = 4096 then 8192 else 0, 4096, 2, false, 0⟩
  owned := ∅

/-- Two processors that do nothing yet. -/
def twoCpus : System Bool Unit PfaData PfaWork where
  locks := fun _ => ⟨0, 0⟩
  cpus := fun _ => ⟨rflagsIf, 0, fun _ => ⟨.running, .idle, true⟩, fun _ => 0⟩
  data := frameData

theorem frameData_starts : PfaStarts {f | f = 4096 ∨ f = 8192} frameData [4096, 8192] where
  settled := ⟨⟨by decide, by decide⟩, rfl⟩
  zero := by
    rintro (hno | hno)
    · cases hno
    · cases hno
  pool := by
    intro f
    simp [frameData]
  apart := by
    intro f _ hno
    cases hno

/-- One processor has taken the lock, and the other one tries it. -/
theorem twoCpus_contend : ∃ s, Reachable true (pfaClient {f | f = 4096 ∨ f = 8192}) frameData s ∧
    (s.cpus true).top.Owns pfaHeld () ∧ (s.cpus false).top.Tries () := by
  have hstart : Reachable true (pfaClient {f | f = 4096 ∨ f = 8192}) frameData twoCpus :=
    .start ⟨fun _ => rfl, fun _ => rfl, fun _ => rfl, fun _ => rfl, fun _ => Sync.ifSet_rflagsIf.symm⟩ rfl
  have hcall := Reachable.step hstart (.cpu true _ _ _ (CpuStep.act PfaWork.alloc frameData rflagsIf rfl (PfaAct.callAlloc frameData) rfl))
  have hread := Reachable.step hcall (.cpu true _ _ _ (.readFlags () .allocTest rfl .alloc))
  have hclear := Reachable.step hread (.cpu true _ _ _ (.clearFlag () rflagsIf rfl))
  have hcall' := Reachable.step hclear
    (.cpu false _ _ _ (CpuStep.act PfaWork.alloc frameData rflagsIf rfl (PfaAct.callAlloc frameData) rfl))
  have hread' := Reachable.step hcall' (.cpu false _ _ _ (.readFlags () .allocTest rfl .alloc))
  have hclear' := Reachable.step hread' (.cpu false _ _ _ (.clearFlag () rflagsIf rfl))
  have hwon := Reachable.step hclear' (.cpu true _ _ _ (.cmpxchg () rflagsIf rfl rfl))
  exact ⟨_, hwon, Or.inr rfl, rflagsIf, Or.inl rfl⟩

theorem frames_one_place_two : ∃ (s : System Bool Unit PfaData PfaWork) (now : List Nat),
    Reachable true (pfaClient {f | f = 4096 ∨ f = 8192}) frameData s ∧
      Assigned {f | f = 4096 ∨ f = 8192} (Has s now) := by
  obtain ⟨s, hreach, -, -⟩ := twoCpus_contend
  obtain ⟨now, hplaces, -, -⟩ := frames_one_place (fun hno => by cases hno) frameData_starts hreach
  exact ⟨s, now, hreach, hplaces⟩

theorem lock_excludes_two : ∃ s, Reachable true (pfaClient {f | f = 4096 ∨ f = 8192}) frameData s ∧
    ifSet (s.cpus true).flags = false := by
  obtain ⟨s, hreach, howns, -⟩ := twoCpus_contend
  have hexcludes := Sync.lock_excludes (pfa_disciplined _) (fun hno => by cases hno) hreach
  exact ⟨s, hreach, (hexcludes.1 true true _ _ () le_rfl le_rfl howns howns).2.2.2⟩

theorem waiting_has_runner_two : ∃ s, Reachable true (pfaClient {f | f = 4096 ∨ f = 8192}) frameData s ∧
    ∃ c', c' ≠ false ∧ (s.cpus c').top.Owns pfaHeld () ∧ ¬s.Waits pfaHeld c' := by
  obtain ⟨s, hreach, howns, htries⟩ := twoCpus_contend
  rcases Sync.waiting_has_runner (pfa_disciplined _) (fun hno => by cases hno) (pfa_lively _) hreach
    htries with hnone | ⟨c', l', hne, -, howner, hruns, -⟩
  · exact absurd howns (hnone true)
  · exact ⟨s, hreach, c', hne, howner, hruns⟩

end Mm
end Nyxis
