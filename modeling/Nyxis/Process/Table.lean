import Nyxis.Process.Elf
import Nyxis.Mm.Destroy
import Nyxis.Lib.Linked

/-!
# The process table

The process table of {lit}`kernel/process/process.c`, the round-robin policy of
{lit}`sched_rr.h`, the heap call of {lit}`umem.c` and {lit}`process_spawn`.

A process is a slot of a fixed table, and the processes in use are chained by
their {lit}`next` fields.  A context switch changes the current process; what the
switched-out thread does after it is resumed belongs to a later step.  The loops
over the chain carry a fuel of one table length, and running out of it is the
outcome {lit}`hang`: a chain with a cycle would keep the source in the loop.
-/

namespace Nyxis
namespace Process

open Mm

/-! ## Data -/

def processMax : Nat := 16

inductive ProcessState
  | ready
  | running
  | blocked
  | terminated
deriving DecidableEq, Repr

/-- {lit}`process_t`, without the kernel stack and the handle table.  The address
space is the physical address of its top-level table, zero for a kernel thread. -/
structure Proc where
  pid : Nat
  state : ProcessState
  addrspace : Nat
  userEntry : Nat
  userStackTop : Nat
  heapStart : Nat
  heapBrk : Nat
  wakeTick : Nat
  exitCode : Int
  inUse : Bool
  next : Option Nat

/-- A cleared slot. -/
def Proc.zero : Proc where
  pid := 0
  state := .ready
  addrspace := 0
  userEntry := 0
  userStackTop := 0
  heapStart := 0
  heapBrk := 0
  wakeTick := 0
  exitCode := 0
  inUse := false
  next := none

/-- The globals of the process subsystem and the memory below it. -/
structure Kernel where
  memory : Memory
  procs : Nat → Proc
  processList : Option Nat
  current : Option Nat
  nextPid : Nat
  tick : Nat
  lastExitCode : Int

abbrev KernelM := Eff Stop Kernel

/-- Run a computation of the memory subsystem. -/
def onMemory {α : Type} (c : MemM α) : KernelM α :=
  fun k =>
    match c k.memory with
    | (.ok x, m) => (.ok x, { k with memory := m })
    | (.error e, m) => (.error (.status e), { k with memory := m })

/-- Update one slot. -/
def setProc (i : Nat) (f : Proc → Proc) : KernelM Unit :=
  Eff.modify (fun k => { k with procs := Function.update k.procs i (f (k.procs i)) })

/-! ## Reaping -/

/-- The loop of {lit}`process_reap`. -/
def reapLoop : (fuel : Nat) → (p prev : Option Nat) → KernelM Unit
  | _, none, _ => pure ()
  | 0, some _, _ => Eff.fail .hang
  | fuel + 1, some p, prev => do
      let proc ← Eff.gets (fun k => k.procs p)
      let cur ← Eff.gets Kernel.current
      if proc.state = .terminated ∧ cur ≠ some p ∧ proc.pid ≠ 0 then
        match prev with
        | some q => setProc q (fun r => { r with next := proc.next })
        | none => Eff.modify (fun k => { k with processList := proc.next })
        if proc.addrspace ≠ 0 then
          onMemory (pagingAddrspaceDestroy proc.addrspace)
        setProc p (fun _ => Proc.zero)
        reapLoop fuel proc.next prev
      else
        reapLoop fuel proc.next (some p)

/-- {lit}`process_reap`: release the slots and address spaces of terminated
processes other than the current one. -/
def processReap : KernelM Unit := do
  let head ← Eff.gets Kernel.processList
  reapLoop processMax head none

/-! ## Creation -/

/-- {lit}`process_init`: register the boot thread as the idle process. -/
def processInit : KernelM Unit := do
  let head ← Eff.gets Kernel.processList
  if head.isSome then
    failWith .NalreadyInitialized
  else
    Eff.modify (fun k => { k with
      procs := Function.update (fun _ => Proc.zero) 0
        { Proc.zero with state := .running, inUse := true }
      processList := some 0
      current := some 0 })

/-- The first unused slot among the given ones. -/
def findSlot (procs : Nat → Proc) : List Nat → Option Nat
  | [] => none
  | i :: is => if (procs i).inUse then findSlot procs is else some i

/-- The last slot of the chain. -/
def findTail : (fuel tail : Nat) → KernelM Nat
  | 0, _ => Eff.fail .hang
  | fuel + 1, tail => do
      let proc ← Eff.gets (fun k => k.procs tail)
      match proc.next with
      | none => pure tail
      | some next => findTail fuel next

/-- The common part of {lit}`process_create` and {lit}`process_create_user`: reap,
take a free slot, fill it and append it to the chain. -/
def createProc (image : Proc) : KernelM Nat := do
  let head ← Eff.gets Kernel.processList
  if head = none then
    failWith .NnotInitialized
  else do
    processReap
    let k ← Eff.gets id
    match findSlot k.procs (List.range' 1 (processMax - 1)) with
    | none => failWith .NprocessFailed
    | some slot => do
        Eff.modify (fun k => { k with nextPid := (k.nextPid + 1) % 2 ^ 32 })
        setProc slot (fun _ => { image with
          pid := k.nextPid, state := .ready, inUse := true, next := none })
        match k.processList with
        -- the source would follow a null pointer here
        | none => Eff.fail .panic
        | some first => do
            let tail ← findTail processMax first
            setProc tail (fun r => { r with next := some slot })
            pure k.nextPid

/-- {lit}`process_create`: a kernel thread. -/
def processCreate (entryPoint : Nat) : KernelM Unit := do
  if entryPoint = 0 then
    failWith .NinvalidArg
  else
    let _ ← createProc Proc.zero
    pure ()

/-- {lit}`process_create_user`: a process with an address space of its own. -/
def processCreateUser (pml4 entry stackTop heapStart : Nat) : KernelM Nat :=
  if pml4 = 0 then
    failWith .NinvalidArg
  else
    createProc { Proc.zero with
      addrspace := pml4, userEntry := entry, userStackTop := stackTop,
      heapStart := heapStart, heapBrk := heapStart }

/-- {lit}`process_spawn` of the file that opening the path yields. -/
def processSpawn (file : Except Nstatus FileView) : KernelM Nat :=
  match file with
  | .error e => failWith e
  | .ok view => do
      let s ← onMemory pagingAddrspaceCreate
      match ← attemptStatus (onMemory (elfLoad view s)) with
      | .error e =>
          onMemory (pagingAddrspaceDestroy s)
          failWith e
      | .ok (entry, imageEnd) =>
          match ← attemptStatus (onMemory (mapUserStack s)) with
          | .error e =>
              onMemory (pagingAddrspaceDestroy s)
              failWith e
          | .ok () =>
              match ← attemptStatus
                  (processCreateUser s entry (Process.userStackTop - userStackInit) imageEnd) with
              | .error e =>
                  onMemory (pagingAddrspaceDestroy s)
                  failWith e
              | .ok pid => pure pid

/-! ## Switching -/

/-- {lit}`process_switch`. -/
def processSwitch (p : Nat) : KernelM Unit := do
  let proc ← Eff.gets (fun k => k.procs p)
  let old ← Eff.gets Kernel.current
  if proc.inUse = false ∨ proc.state ≠ .ready then
    failWith .NinvalidArg
  else if old = some p then
    pure ()
  else
    match old with
    | some o =>
        setProc o (fun r => if r.state = .running then { r with state := .ready } else r)
    | none => pure ()
    Eff.modify (fun k => { k with current := some p })
    setProc p (fun r => { r with state := .running })

/-- Wake a sleeping process whose time has come. -/
def wake (tick : Nat) (r : Proc) : Proc :=
  if r.inUse ∧ r.state = .blocked ∧ r.wakeTick ≠ 0 ∧ tick ≥ r.wakeTick then
    { r with state := .ready, wakeTick := 0 }
  else r

/-- The loop of {lit}`sched_pick_next`. -/
def pickLoop (current head : Nat) : (fuel p : Nat) → KernelM (Option Nat)
  | fuel, p => do
      if p = current then
        pure none
      else
        match fuel with
        | 0 => Eff.fail .hang
        | fuel + 1 => do
            let k ← Eff.gets id
            setProc p (wake k.tick)
            let proc ← Eff.gets (fun k => k.procs p)
            if proc.inUse ∧ proc.state = .ready then
              pure (some p)
            else
              pickLoop current head fuel (proc.next.getD head)

/-- {lit}`sched_pick_next`: search once around the chain, behind the current
process. -/
def schedPickNext (current head : Nat) : KernelM (Option Nat) := do
  let proc ← Eff.gets (fun k => k.procs current)
  pickLoop current head processMax (proc.next.getD head)

/-- {lit}`schedule`. -/
def schedule : KernelM Unit := do
  let k ← Eff.gets id
  match k.current, k.processList with
  | some cur, some head =>
      match ← schedPickNext cur head with
      | some next => do
          let _ ← attemptStatus (processSwitch next)
          pure ()
      | none => pure ()
  | _, _ => pure ()

/-! ## Termination, sleeping and the heap -/

/-- The process of the chain with a given identifier. -/
def findPid (pid : Nat) : (fuel : Nat) → (p : Option Nat) → KernelM (Option Nat)
  | _, none => pure none
  | 0, some _ => Eff.fail .hang
  | fuel + 1, some p => do
      let proc ← Eff.gets (fun k => k.procs p)
      if proc.inUse ∧ proc.pid = pid then
        pure (some p)
      else
        findPid pid fuel proc.next

/-- {lit}`process_terminate`. -/
def processTerminate (pid : Nat) : KernelM Unit := do
  if pid = 0 then
    failWith .Npermission
  else
    let head ← Eff.gets Kernel.processList
    match ← findPid pid processMax head with
    | none => failWith .NnotFound
    | some p => do
        let proc ← Eff.gets (fun k => k.procs p)
        if proc.state = .terminated then
          failWith .NnotFound
        else
          setProc p (fun r => { r with state := .terminated })
          let cur ← Eff.gets Kernel.current
          if cur = some p then do
            schedule
            let cur' ← Eff.gets Kernel.current
            if cur' = some p then
              Eff.fail .panic
            else
              pure ()
          else
            processReap

/-- {lit}`process_exit_with_code`. -/
def processExitWithCode (code : Int) : KernelM Unit := do
  let k ← Eff.gets id
  match k.current with
  | none => Eff.fail .panic
  | some cur =>
      if (k.procs cur).pid = 0 then
        Eff.fail .panic
      else do
        setProc cur (fun r => { r with exitCode := code })
        Eff.modify (fun k => { k with lastExitCode := code })
        processTerminate (k.procs cur).pid

/-- {lit}`process_sleep_ticks`. -/
def processSleepTicks (ticks : Nat) : KernelM Unit := do
  let k ← Eff.gets id
  match k.current with
  | none => failWith .Npermission
  | some self =>
      if (k.procs self).pid = 0 then
        failWith .Npermission
      else do
        setProc self (fun r => { r with
          wakeTick := (k.tick + (if ticks = 0 then 1 else ticks)) % 2 ^ 64, state := .blocked })
        schedule
        let k' ← Eff.gets id
        if k'.current = some self ∧ (k'.procs self).state = .blocked then do
          setProc self (fun r => { r with state := .running, wakeTick := 0 })
          failWith .Ninterrupted
        else
          pure ()

/-- {lit}`timer_tick++`. -/
def timerTick : KernelM Unit :=
  Eff.modify (fun k => { k with tick := (k.tick + 1) % 2 ^ 64 })

def heapGrowMaxPerCall : Nat := 256 * 1024 * 1024
def heapMaxTotal : Nat := 512 * 1024 * 1024

/-- {lit}`umem_brk` of the process in a slot. -/
def umemBrk (p : Nat) (increment : Int) : KernelM Nat := do
  let proc ← Eff.gets (fun k => k.procs p)
  let oldBrk := proc.heapBrk
  let used := (oldBrk + 2 ^ 64 - proc.heapStart) % 2 ^ 64
  if proc.addrspace = 0 then
    failWith .Npermission
  else if increment = 0 then
    pure oldBrk
  else if 0 < increment then
    let newBrk := (oldBrk + increment.toNat) % 2 ^ 64
    if increment.toNat > heapGrowMaxPerCall then
      failWith .NinvalidArg
    else if (newBrk + 2 ^ 64 - proc.heapStart) % 2 ^ 64 > heapMaxTotal then
      failWith .NoutOfMemory
    else if newBrk ≥ userStackGuard then
      failWith .NoutOfMemory
    else do
      let first := alignUp oldBrk pageSize
      let last := alignUp newBrk pageSize
      onMemory (growHeap proc.addrspace first (pageCount first last) first)
      setProc p (fun r => { r with heapBrk := newBrk })
      pure newBrk
  else if increment = -2 ^ 63 then
    failWith .NinvalidArg
  else if (-increment).toNat > used then
    failWith .NinvalidArg
  else do
    let newBrk := (oldBrk + 2 ^ 64 - (-increment).toNat) % 2 ^ 64
    let first := alignUp newBrk pageSize
    let last := alignUp oldBrk pageSize
    onMemory (releasePages proc.addrspace (pageCount first last) first)
    setProc p (fun r => { r with heapBrk := newBrk })
    pure newBrk

end Process
end Nyxis
