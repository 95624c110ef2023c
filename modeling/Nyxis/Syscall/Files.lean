import Mathlib.Data.Finset.Card
import Mathlib.Data.Finset.Prod
import Nyxis.Syscall.Handles
import Nyxis.Vfs.OpenFiles
import Nyxis.Nyfs.Kernel
import Nyxis.Nyfs.Runs
import Nyxis.Process.Table

/-!
# Open files and handles

The handle tables of the processes above the file system: {lit}`sys_open`,
{lit}`sys_duplicate_handle`, {lit}`sys_close`, the handle table of a new process and the release of
the handles of a process that ends.  Opening and duplicating take a slot of a driver and a slot of a
handle table in two steps and undo the first one when the second one fails.

A handle table belongs to a slot of the process table; a slot without a process, or with a process
that has been terminated, has none.  What {lit}`copy_string_from_user` returns is an argument of the
call.

Main results:

- Theorem {lit}`Accounted.step`: each call keeps the live file handles and the slots of the drivers
  in a one-to-one correspondence.
- Theorem {lit}`FileRun.accounted`: whole runs.
- Theorem {lit}`open_files_accounted`: the accounting of the NyFS driver.
-/

namespace Nyxis
namespace Syscall

open Vfs
open Process (processMax)

variable {σ : Type}

/-! ## The calls -/

/-- The handle tables of the processes and the file system below them. -/
structure Files (σ : Type) where
  tables : Nat → Option HandleTable
  vfs : VfsState σ

abbrev FilesM (σ : Type) := Eff Stop (Files σ)

/-- Call the virtual file system. -/
def onVfs {α : Type} (m : VfsM σ α) : FilesM σ α :=
  fun s => ((m s.vfs).1, { s with vfs := (m s.vfs).2 })

/-- {lit}`cur_handles`: the table of the calling process. -/
def curHandles (p : Nat) : FilesM σ HandleTable := do
  match ← Eff.gets (fun s => s.tables p) with
  | none => failWith .NnotInitialized
  | some t => pure t

def setTable (p : Nat) (t : HandleTable) : FilesM σ Unit :=
  Eff.modify (fun s => { s with tables := Function.update s.tables p (some t) })

variable (drivers : Nat → VfsOps σ)

/-- {lit}`vfs_close` under a {lit}`(void)` cast. -/
def closeFile (file : Handle) : FilesM σ Unit := do
  let _ ← attemptStatus (onVfs (vfsClose drivers file))
  pure ()

/-- The test of {lit}`sys_open` that a file opened for writing can be written. -/
def probeWrite (flags : Nat) (file : Handle) : FilesM σ Handle := do
  if flags &&& nxOWrite = 0 then
    pure file
  else
    match ← attemptStatus (onVfs (vfsWrite drivers file [])) with
    | .error e =>
        closeFile drivers file
        failWith e
    | .ok (_, file') => pure file'

/-- {lit}`sys_open`. -/
def sysOpen (p : Nat) (buffer : List UInt8) (path : Except Nstatus (List UInt8)) (flags : Nat) :
    FilesM σ Nat := do
  let table ← curHandles p
  if flags &&& nxOMask ≠ flags ∨ flags = 0 then
    failWith .NinvalidArg
  else
    match path with
    | .error e => failWith e
    | .ok path =>
        let file ← onVfs (vfsOpen drivers buffer path flags)
        let file' ← probeWrite drivers flags file
        match openSlot table flags file' with
        | .error e =>
            closeFile drivers file'
            failWith e
        | .ok (handle, _, table') =>
            setTable p table'
            pure handle

/-- What the new handle of {lit}`sys_duplicate_handle` gets: nothing for the console, or else a file
that is opened anew. -/
def reopenSource (source : HandleSlot) : FilesM σ (Except Nstatus Handle) :=
  if source.type = .console then
    pure (.ok Handle.cleared)
  else
    attemptStatus (onVfs (vfsReopen drivers source.file))

/-- {lit}`sys_duplicate_handle`. -/
def sysDuplicateHandle (p handle mask : Nat) : FilesM σ Nat := do
  let table ← curHandles p
  match duplicateSlot table handle mask with
  | .error e => failWith e
  | .ok (i, handle', j, table') =>
      setTable p table'
      let file ← reopenSource drivers (table' i)
      match fillDuplicate table' i j file with
      | .ok filled =>
          setTable p filled
          pure handle'
      | .error e =>
          setTable p (handleDiscard table' j)
          failWith e

/-- {lit}`nx_handle_close`, which is {lit}`sys_close`. -/
def sysClose (p handle : Nat) : FilesM σ Unit := do
  let table ← curHandles p
  match handleLookup table handle 0 with
  | .error e => failWith e
  | .ok i =>
      if (table i).type = .file then
        closeFile drivers (table i).file
      setTable p (handleDiscard table i)

/-- The rounds of {lit}`nx_handles_close_all`. -/
def closeHandles (p : Nat) : List Nat → FilesM σ Unit
  | [] => pure ()
  | i :: is => do
      let table ← curHandles p
      if (table i).type ≠ .free then
        let _ ← attemptStatus (sysClose drivers p (makeHandle (table i).generation i))
      closeHandles p is

/-- The handles and the slot of {lit}`process_terminate`.  The first process stays. -/
def terminate (p : Nat) : FilesM σ Unit := do
  if p = 0 then
    failWith .Npermission
  else
    match ← Eff.gets (fun s => s.tables p) with
    | none => failWith .NnotFound
    | some _ =>
        closeHandles drivers p (List.range nxMaxHandles)
        Eff.modify (fun s => { s with tables := Function.update s.tables p none })

/-- The slot and the handle table of a new process. -/
def create : FilesM σ Nat := do
  let tables ← Eff.gets Files.tables
  match firstFree (fun i => decide (i = 0) || (tables i).isSome) processMax with
  | none => failWith .NprocessFailed
  | some p =>
      setTable p handlesInit
      pure p

/-- The calls of a run. -/
inductive FileCall
  | openFile (p : Nat) (buffer : List UInt8) (path : Except Nstatus (List UInt8)) (flags : Nat)
  | duplicate (p handle mask : Nat)
  | close (p handle : Nat)
  | create
  | exit (p : Nat)

/-- Run a call for its status. -/
def FileCall.exec : FileCall → FilesM σ Unit
  | .openFile p buffer path flags => do
      let _ ← sysOpen drivers p buffer path flags
  | .duplicate p handle mask => do
      let _ ← sysDuplicateHandle drivers p handle mask
  | .close p handle => sysClose drivers p handle
  | .create => do
      let _ ← Syscall.create
  | .exit p => terminate drivers p

/-! ## Who holds which slot -/

variable {drivers} {used : σ → Finset Nat}

/-- The file of a live file handle, given by its process and its slot in the table. -/
def Files.fileAt (s : Files σ) (q : Nat × Nat) : Option Handle :=
  (s.tables q.1).bind (fun t =>
    if q.2 < nxMaxHandles ∧ (t q.2).type = .file then some (t q.2).file else none)

/-- Every file can be closed, no two of them have one slot, and every slot in use belongs to a
file. -/
structure Holds (drivers : Nat → VfsOps σ) (used : σ → Finset Nat) (v : VfsState σ)
    (files : Nat × Nat → Option Handle) : Prop where
  closable : ∀ q h, files q = some h → ∃ slot ∈ used v.drv.fs, Closable drivers v h slot
  unique : ∀ q q' h h', files q = some h → files q' = some h' → h.fsPrivate = h'.fsPrivate → q = q'
  onto : ∀ slot ∈ used v.drv.fs, ∃ q h, files q = some h ∧ h.fsPrivate = some slot

variable {v v' : VfsState σ} {files : Nat × Nat → Option Handle} {q : Nat × Nat}

/-- A call that opens and closes no file. -/
theorem Holds.undisturbed (h : Holds drivers used v files) (hsame : Undisturbed used v v') :
    Holds drivers used v' files := by
  refine ⟨fun q g hq => ?_, h.unique, fun slot hslot => ?_⟩
  · obtain ⟨slot, hslot, hg⟩ := h.closable q g hq
    exact ⟨slot, by rw [hsame.used_eq]; exact hslot, hg.congr hsame.vnodes⟩
  · rw [hsame.used_eq] at hslot
    exact h.onto slot hslot

/-- A new handle gets a file with a new slot. -/
theorem Holds.insert (h : Holds drivers used v files) {g : Handle} {slot : Nat}
    (hfree : files q = none) (hnew : slot ∉ used v.drv.fs)
    (hinsert : used v'.drv.fs = insert slot (used v.drv.fs))
    (hvnodes : ∀ n, (v.drv.vnodes n).inUse = true → v'.drv.vnodes n = v.drv.vnodes n)
    (hg : Closable drivers v' g slot) : Holds drivers used v' (Function.update files q (some g)) := by
  have hother : ∀ q' g', files q' = some g' → g'.fsPrivate ≠ some slot := by
    intro q' g' hq' heq
    obtain ⟨slot', hslot', hclosable⟩ := h.closable q' g' hq'
    rw [hclosable.slot_eq] at heq
    cases heq
    exact hnew hslot'
  refine ⟨fun q' g' hq' => ?_, fun q₁ q₂ g₁ g₂ hq₁ hq₂ heq => ?_, fun slot' hslot' => ?_⟩
  · by_cases hqq : q' = q
    · rw [hqq, Function.update_self] at hq'
      cases hq'
      exact ⟨slot, by rw [hinsert]; exact Finset.mem_insert_self .., hg⟩
    · rw [Function.update_of_ne hqq] at hq'
      obtain ⟨slot', hslot', hclosable⟩ := h.closable q' g' hq'
      exact ⟨slot', by rw [hinsert]; exact Finset.mem_insert_of_mem hslot', hclosable.congr hvnodes⟩
  · by_cases hqq₁ : q₁ = q
    · by_cases hqq₂ : q₂ = q
      · rw [hqq₁, hqq₂]
      · rw [hqq₁, Function.update_self] at hq₁
        rw [Function.update_of_ne hqq₂] at hq₂
        cases hq₁
        rw [hg.slot_eq] at heq
        exact absurd heq.symm (hother q₂ g₂ hq₂)
    · rw [Function.update_of_ne hqq₁] at hq₁
      by_cases hqq₂ : q₂ = q
      · rw [hqq₂, Function.update_self] at hq₂
        cases hq₂
        rw [hg.slot_eq] at heq
        exact absurd heq (hother q₁ g₁ hq₁)
      · rw [Function.update_of_ne hqq₂] at hq₂
        exact h.unique q₁ q₂ g₁ g₂ hq₁ hq₂ heq
  · rw [hinsert, Finset.mem_insert] at hslot'
    rcases hslot' with rfl | hslot'
    · exact ⟨q, g, Function.update_self .., hg.slot_eq⟩
    · obtain ⟨q', g', hq', heq⟩ := h.onto slot' hslot'
      refine ⟨q', g', ?_, heq⟩
      rw [Function.update_of_ne]
      · exact hq'
      · rintro rfl
        rw [hfree] at hq'
        cases hq'

/-- A handle gives back the slot of its file. -/
theorem Holds.erase (h : Holds drivers used v files) {g : Handle} {slot : Nat}
    (hq : files q = some g) (hslot : g.fsPrivate = some slot)
    (herase : used v'.drv.fs = (used v.drv.fs).erase slot) (hvnodes : v'.drv.vnodes = v.drv.vnodes) :
    Holds drivers used v' (Function.update files q none) := by
  have hne : ∀ q' g', Function.update files q none q' = some g' → q' ≠ q ∧ files q' = some g' := by
    intro q' g' hq'
    by_cases hqq : q' = q
    · rw [hqq, Function.update_self] at hq'
      cases hq'
    · rw [Function.update_of_ne hqq] at hq'
      exact ⟨hqq, hq'⟩
  refine ⟨fun q' g' hq' => ?_, fun q₁ q₂ g₁ g₂ hq₁ hq₂ heq => ?_, fun slot' hslot' => ?_⟩
  · obtain ⟨hqq, hq'⟩ := hne q' g' hq'
    obtain ⟨slot', hslot', hclosable⟩ := h.closable q' g' hq'
    refine ⟨slot', ?_, hclosable.congr (fun n _ => by rw [hvnodes])⟩
    rw [herase, Finset.mem_erase]
    refine ⟨?_, hslot'⟩
    rintro rfl
    exact hqq (h.unique q' q g' g hq' hq (hclosable.slot_eq.trans hslot.symm))
  · exact h.unique q₁ q₂ g₁ g₂ (hne q₁ g₁ hq₁).2 (hne q₂ g₂ hq₂).2 heq
  · rw [herase, Finset.mem_erase] at hslot'
    obtain ⟨q', g', hq', heq⟩ := h.onto slot' hslot'.2
    refine ⟨q', g', ?_, heq⟩
    rw [Function.update_of_ne]
    · exact hq'
    · rintro rfl
      rw [hq] at hq'
      cases hq'
      rw [hslot] at heq
      exact hslot'.1 (Option.some.inj heq).symm

/-- The state is in order: the vnodes of the dentries are in use, the tables belong to slots of the
process table, and the live file handles hold exactly the slots of the drivers. -/
structure Accounted (drivers : Nat → VfsOps σ) (used : σ → Finset Nat) (s : Files σ) : Prop where
  nodes : NodesUsed s.vfs
  bound : ∀ p t, s.tables p = some t → p < processMax
  generation : ∀ p t i, s.tables p = some t → (t i).generation < 2 ^ 32
  holds : Holds drivers used s.vfs s.fileAt

variable {s : Files σ} {p : Nat} {t t' : HandleTable}

/-- A table in which one slot has changed. -/
theorem Files.fileAt_setTable (ht : s.tables p = some t) {j : Nat} (hothers : ∀ i, i ≠ j → t' i = t i)
    (v : VfsState σ) :
    Files.fileAt ⟨Function.update s.tables p (some t'), v⟩ = Function.update s.fileAt (p, j)
      (if j < nxMaxHandles ∧ (t' j).type = .file then some (t' j).file else none) := by
  funext q
  obtain ⟨p', i⟩ := q
  unfold Files.fileAt
  dsimp only
  by_cases hp : p' = p
  · subst hp
    rw [Function.update_self, Option.bind_some]
    by_cases hi : i = j
    · subst hi
      rw [Function.update_self]
    · rw [Function.update_of_ne (fun heq => hi (Prod.mk.inj heq).2), ht, Option.bind_some, hothers i hi]
  · rw [Function.update_of_ne hp, Function.update_of_ne (fun heq => hp (Prod.mk.inj heq).1)]

/-- The state after a change of one slot of a table. -/
theorem Accounted.setTable (h : Accounted drivers used s) (ht : s.tables p = some t) {j : Nat}
    (hothers : ∀ i, i ≠ j → t' i = t i) (hgen : (t' j).generation < 2 ^ 32) (hnodes : NodesUsed v')
    (hholds : Holds drivers used v' (Function.update s.fileAt (p, j)
      (if j < nxMaxHandles ∧ (t' j).type = .file then some (t' j).file else none))) :
    Accounted drivers used ⟨Function.update s.tables p (some t'), v'⟩ := by
  refine ⟨hnodes, fun p' u hu => ?_, fun p' u i hu => ?_, ?_⟩
  · dsimp only at hu
    by_cases hp : p' = p
    · rw [hp]
      exact h.bound p t ht
    · rw [Function.update_of_ne hp] at hu
      exact h.bound p' u hu
  · dsimp only at hu
    by_cases hp : p' = p
    · rw [hp, Function.update_self] at hu
      cases hu
      by_cases hi : i = j
      · rw [hi]
        exact hgen
      · rw [hothers i hi]
        exact h.generation p t i ht
    · rw [Function.update_of_ne hp] at hu
      exact h.generation p' u i hu
  · rw [Files.fileAt_setTable ht hothers]
    exact hholds

/-- The state after a call of the file system that opens and closes no file. -/
theorem Accounted.quiet (h : Accounted drivers used s) (hquiet : Quiet used s.vfs v') :
    Accounted drivers used { s with vfs := v' } :=
  ⟨hquiet.1, h.bound, h.generation, h.holds.undisturbed hquiet.2⟩

theorem Files.fileAt_of_not_file (ht : s.tables p = some t) {i : Nat} (htype : (t i).type ≠ .file) :
    s.fileAt (p, i) = none := by
  rw [Files.fileAt, ht, Option.bind_some, if_neg (fun hfile => htype hfile.2)]

theorem Files.fileAt_of_file (ht : s.tables p = some t) {i : Nat} (hi : i < nxMaxHandles)
    (htype : (t i).type = .file) : s.fileAt (p, i) = some (t i).file := by
  rw [Files.fileAt, ht, Option.bind_some, if_pos ⟨hi, htype⟩]

/-! ## One call -/

/-- A call that has come back. -/
def Returned {α : Type} : Except Stop α → Prop
  | .ok _ => True
  | .error (.status _) => True
  | .error _ => False

/-- A call that comes back leaves the accounts in order, and takes and gives back no slot when it
fails. -/
def Settles {α : Type} (drivers : Nat → VfsOps σ) (used : σ → Finset Nat) (s : Files σ)
    (r : Except Stop α) (s' : Files σ) : Prop :=
  Returned r → Accounted drivers used s' ∧
    ∀ e, r = .error e → used s'.vfs.drv.fs = used s.vfs.drv.fs

theorem Settles.of_quiet {α : Type} {r : Except Stop α} (h : Accounted drivers used s)
    (hquiet : Quiet used s.vfs v') : Settles drivers used s r { s with vfs := v' } :=
  fun _ => ⟨h.quiet hquiet, fun _ _ => hquiet.2.used_eq⟩

theorem Accounted.settles {α : Type} {r : Except Stop α} (h : Accounted drivers used s) :
    Settles drivers used s r s :=
  fun _ => ⟨h, fun _ _ => rfl⟩

/-- A failure is passed on. -/
theorem Settles.error {α β : Type} {s' : Files σ} {e : Stop}
    (h : Settles drivers used s (.error e : Except Stop α) s') :
    Settles drivers used s (.error e : Except Stop β) s' := by
  cases e with
  | status e =>
      obtain ⟨haccounted, hsame⟩ := h trivial
      exact fun _ => ⟨haccounted, fun _ _ => hsame _ rfl⟩
  | panic => exact nofun
  | hang => exact nofun

theorem post_onVfs {α : Type} {m : VfsM σ α} {R : Except Stop α → VfsState σ → Prop}
    (h : Eff.Post m s.vfs R) :
    Eff.Post (onVfs m) s (fun r s' => ∃ v', R r v' ∧ s' = { s with vfs := v' }) :=
  ⟨_, h, rfl⟩

/-- The table of a process that has one. -/
theorem curHandles_post {α : Type} {f : HandleTable → FilesM σ α} {Q : Except Stop α → Files σ → Prop}
    (hnone : s.tables p = none → Q (.error (.status .NnotInitialized)) s)
    (hsome : ∀ t, s.tables p = some t → Eff.Post (f t) s Q) : Eff.Post (curHandles p >>= f) s Q := by
  cases ht : s.tables p with
  | none =>
      refine Eff.post_bind_error ?_ (hnone ht)
      rw [curHandles, Eff.gets_bind_run, ht]
      rfl
  | some t =>
      refine Eff.post_bind_ok ?_ (hsome t ht)
      rw [curHandles, Eff.gets_bind_run, ht]
      rfl

/-- A slot of a table that is not and does not become a file. -/
theorem Accounted.setOther (h : Accounted drivers used s) (ht : s.tables p = some t) {j : Nat}
    (hothers : ∀ i, i ≠ j → t' i = t i) (hgen : (t' j).generation < 2 ^ 32)
    (hbefore : s.fileAt (p, j) = none) (hafter : (t' j).type ≠ .file) (hquiet : Quiet used s.vfs v') :
    Accounted drivers used ⟨Function.update s.tables p (some t'), v'⟩ := by
  refine h.setTable ht hothers hgen hquiet.1 ?_
  rw [if_neg (fun hfile => hafter hfile.2), ← hbefore, Function.update_eq_self]
  exact h.holds.undisturbed hquiet.2

variable (hD : FileDrivers drivers used)
include hD

theorem closeFile_post {g : Handle} {slot : Nat} (h : NodesUsed s.vfs)
    (hg : Closable drivers s.vfs g slot) :
    Eff.Post (closeFile drivers g) s (fun r s' => (Returned r → r = .ok ()) ∧
      ∃ v', s' = { s with vfs := v' } ∧ NodesUsed v' ∧ v'.drv.vnodes = s.vfs.drv.vnodes ∧
        used v'.drv.fs = (used s.vfs.drv.fs).erase slot) := by
  refine post_attemptStatus_bind (post_onVfs (hD.vfsClose h hg)) ?_ ?_ ?_ ?_
  · rintro _ s' ⟨v', hv', rfl⟩
    exact ⟨fun _ => rfl, v', rfl, hv'⟩
  · rintro _ s' ⟨v', hv', rfl⟩
    exact ⟨fun _ => rfl, v', rfl, hv'⟩
  · rintro s' ⟨v', hv', rfl⟩
    exact ⟨nofun, v', rfl, hv'⟩
  · rintro s' ⟨v', hv', rfl⟩
    exact ⟨nofun, v', rfl, hv'⟩

/-- An open file is closed again, and the call fails. -/
theorem Accounted.giveUp {α : Type} (h : Accounted drivers used s) {g : Handle} {slot : Nat}
    (hopened : Opened drivers used s.vfs v' g slot) (e : Nstatus) :
    Eff.Post (closeFile drivers g >>= fun _ => (failWith e : FilesM σ α)) { s with vfs := v' }
      (fun r s' => (∃ stop, r = .error stop) ∧ Settles drivers used s r s') := by
  have hclose := closeFile_post (s := { s with vfs := v' }) hD hopened.nodes hopened.closable
  have hquiet : ∀ w : VfsState σ, NodesUsed w → w.drv.vnodes = v'.drv.vnodes →
      used w.drv.fs = (used v'.drv.fs).erase slot → Quiet used s.vfs w := by
    intro w hnodes hvnodes herase
    refine ⟨hnodes, ?_, fun n hn => ?_⟩
    · rw [herase, hopened.used_eq, Finset.erase_insert hopened.fresh]
    · rw [hvnodes, hopened.vnodes n hn]
  refine Eff.post_bind hclose ?_ ?_
  · rintro stop s' ⟨-, w, rfl, hnodes, hvnodes, herase⟩
    exact ⟨⟨stop, rfl⟩, Settles.of_quiet h (hquiet w hnodes hvnodes herase)⟩
  · rintro _ s' ⟨-, w, rfl, hnodes, hvnodes, herase⟩
    exact ⟨⟨_, rfl⟩, Settles.of_quiet h (hquiet w hnodes hvnodes herase)⟩

/-- The file stays open, or it is closed and the call fails. -/
theorem Accounted.probeWrite (h : Accounted drivers used s) {g : Handle} {slot : Nat}
    (hopened : Opened drivers used s.vfs v' g slot) (flags : Nat) :
    Eff.Post (probeWrite drivers flags g) { s with vfs := v' } (fun r s' =>
      match r with
      | .ok g' => ∃ w, s' = { s with vfs := w } ∧ Opened drivers used s.vfs w g' slot
      | .error e => Settles (α := Handle) drivers used s (.error e) s') := by
  unfold Syscall.probeWrite
  by_cases hflag : flags &&& nxOWrite = 0
  · rw [if_pos hflag]
    exact ⟨v', rfl, hopened⟩
  · rw [if_neg hflag]
    refine post_attemptStatus_bind (post_onVfs (s := { s with vfs := v' })
      (hD.vfsWrite hopened.nodes g [])) ?_ ?_ ?_ ?_
    · rintro ⟨written, g'⟩ s' ⟨w, ⟨hquiet, hsame⟩, rfl⟩
      obtain ⟨hvnode, hslot⟩ := hsame written g' rfl
      exact ⟨w, rfl, hopened.quiet hquiet hvnode hslot⟩
    · rintro e s' ⟨w, ⟨hquiet, -⟩, rfl⟩
      refine Eff.post_mono (h.giveUp hD (hopened.quiet hquiet rfl rfl) e) ?_
      rintro r s' ⟨⟨stop, rfl⟩, hs'⟩
      exact hs'
    · rintro s' ⟨w, -, rfl⟩
      exact nofun
    · rintro s' ⟨w, -, rfl⟩
      exact nofun

/-- {lit}`sys_open` takes a slot for the handle that it returns. -/
theorem Accounted.sysOpen (h : Accounted drivers used s) (p : Nat) (buffer : List UInt8)
    (path : Except Nstatus (List UInt8)) (flags : Nat) :
    Eff.Post (sysOpen drivers p buffer path flags) s (Settles drivers used s) := by
  unfold Syscall.sysOpen
  refine curHandles_post (fun _ => h.settles) (fun t ht => ?_)
  split
  next => exact h.settles
  next =>
    cases path with
    | error e => exact h.settles
    | ok path =>
        dsimp only
        refine Eff.post_bind (post_onVfs (hD.vfsOpen h.nodes buffer path flags)) ?_ ?_
        · rintro e s' ⟨v', hquiet, rfl⟩
          exact Settles.of_quiet h hquiet
        rintro g s' ⟨v', ⟨slot, hopened⟩, rfl⟩
        refine Eff.post_bind (h.probeWrite hD hopened flags) (fun e s' hs' => Settles.error hs') ?_
        rintro g' s' ⟨w, rfl, hopened'⟩
        unfold openSlot
        cases halloc : handleAlloc t .file (openRights flags) with
        | error e =>
            exact Eff.post_mono (h.giveUp hD hopened' e) (fun r s' hs' => hs'.2)
        | ok made =>
            obtain ⟨handle, j, t'⟩ := made
            obtain ⟨hj, hfree, -, rfl⟩ := handleAlloc_eq_ok halloc
            refine fun _ => ⟨h.setTable ht (j := j) (fun i hi => ?_) ?_ hopened'.nodes ?_, nofun⟩
            · rw [Function.update_of_ne hi, Function.update_of_ne hi]
            · rw [Function.update_self, Function.update_self]
              exact h.generation p t j ht
            · rw [Function.update_self, Function.update_self, if_pos ⟨hj, rfl⟩]
              have hnone : s.fileAt (p, j) = none :=
                Files.fileAt_of_not_file ht (by rw [hfree]; decide)
              exact h.holds.insert hnone hopened'.fresh hopened'.used_eq hopened'.vnodes
                hopened'.closable

/-- {lit}`sys_duplicate_handle` takes a slot for the new handle of a file. -/
theorem Accounted.sysDuplicateHandle (h : Accounted drivers used s) (p handle mask : Nat) :
    Eff.Post (sysDuplicateHandle drivers p handle mask) s (Settles drivers used s) := by
  unfold Syscall.sysDuplicateHandle
  refine curHandles_post (fun _ => h.settles) (fun t ht => ?_)
  cases hdup : duplicateSlot t handle mask with
  | error e => exact h.settles
  | ok found =>
      obtain ⟨i, handle', j, t'⟩ := found
      obtain ⟨hi, hlive, hj, hfree, rfl⟩ := duplicateSlot_eq_ok hdup
      have hij : i ≠ j := by
        rintro rfl
        exact hlive hfree
      have hnone : s.fileAt (p, j) = none :=
        Files.fileAt_of_not_file ht (by rw [hfree]; decide)
      have hgen := h.generation p t j ht
      dsimp only
      refine Eff.post_bind_ok rfl ?_
      dsimp only
      rw [Function.update_of_ne hij]
      by_cases hconsole : (t i).type = .console
      · -- the console
        have hrun : reopenSource drivers (t i) = (pure (.ok Handle.cleared) : FilesM σ _) := by
          rw [reopenSource, if_pos hconsole]
        rw [hrun]
        refine Eff.post_bind_ok rfl ?_
        rw [fillDuplicate, Function.update_of_ne hij, if_pos hconsole]
        refine fun _ => ⟨?_, fun e hcon => by cases hcon⟩
        change Accounted drivers used ⟨Function.update (Function.update s.tables p _) p _, s.vfs⟩
        rw [Function.update_idem]
        refine h.setOther ht (j := j) (fun k hk => ?_) ?_ hnone ?_ (Quiet.refl h.nodes)
        · rw [Function.update_of_ne hk, Function.update_of_ne hk]
        · rw [Function.update_self, Function.update_self]
          exact hgen
        · rw [Function.update_self, Function.update_self]
          change (t i).type ≠ .file
          rw [hconsole]
          decide
      · -- a file, which is opened a second time
        have hfile : (t i).type = .file := by
          cases htype : (t i).type with
          | free => exact absurd htype hlive
          | console => exact absurd htype hconsole
          | file => rfl
        obtain ⟨slot, -, hclosable⟩ := h.holds.closable (p, i) _ (Files.fileAt_of_file ht hi hfile)
        have hrun : reopenSource drivers (t i) =
            attemptStatus (onVfs (vfsReopen drivers (t i).file)) := by
          rw [reopenSource, if_neg hconsole]
        rw [hrun]
        refine post_attemptStatus_bind (post_onVfs (hD.vfsReopen h.nodes hclosable)) ?_ ?_ ?_ ?_
        · rintro g s' ⟨v', ⟨slot', hopened⟩, rfl⟩
          rw [fillDuplicate, Function.update_of_ne hij, if_neg hconsole]
          refine fun _ => ⟨?_, fun e hcon => by cases hcon⟩
          change Accounted drivers used ⟨Function.update (Function.update s.tables p _) p _, v'⟩
          rw [Function.update_idem]
          refine h.setTable ht (j := j) (fun k hk => ?_) ?_ hopened.nodes ?_
          · rw [Function.update_of_ne hk, Function.update_of_ne hk]
          · rw [Function.update_self, Function.update_self]
            exact hgen
          · rw [Function.update_self, Function.update_self, if_pos ⟨hj, hfile⟩]
            exact h.holds.insert hnone hopened.fresh hopened.used_eq hopened.vnodes hopened.closable
        · rintro e s' ⟨v', hquiet, rfl⟩
          rw [fillDuplicate, Function.update_of_ne hij, if_neg hconsole]
          refine fun _ => ⟨?_, fun _ _ => hquiet.2.used_eq⟩
          change Accounted drivers used ⟨Function.update (Function.update s.tables p _) p _, v'⟩
          rw [Function.update_idem]
          refine h.setOther ht (j := j) (fun k hk => ?_) ?_ hnone ?_ hquiet
          · rw [handleDiscard, Function.update_of_ne hk, Function.update_of_ne hk]
          · rw [handleDiscard, Function.update_self]
            exact Nat.mod_lt _ (by decide)
          · rw [handleDiscard, Function.update_self]
            change HandleType.free ≠ .file
            decide
        · rintro s' ⟨v', -, rfl⟩ hcon
          cases hcon
        · rintro s' ⟨v', -, rfl⟩ hcon
          cases hcon

omit hD in
/-- A slot that is cleared. -/
theorem Accounted.discard (h : Accounted drivers used s) (ht : s.tables p = some t) {i : Nat}
    (hnodes : NodesUsed v')
    (hholds : Holds drivers used v' (Function.update s.fileAt (p, i) none)) :
    Accounted drivers used ⟨Function.update s.tables p (some (handleDiscard t i)), v'⟩ := by
  refine h.setTable ht (j := i) (fun k hk => ?_) ?_ hnodes ?_
  · rw [handleDiscard, Function.update_of_ne hk]
  · rw [handleDiscard, Function.update_self]
    exact Nat.mod_lt _ (by decide)
  · rw [handleDiscard, Function.update_self, if_neg (fun hfile => HandleType.noConfusion hfile.2)]
    exact hholds

/-- {lit}`nx_handle_close` refuses a value, or clears the slot of the handle and gives back the slot
of its file. -/
theorem Accounted.sysClose (h : Accounted drivers used s) (p handle : Nat) :
    Eff.Post (sysClose drivers p handle) s (fun r s' => Settles drivers used s r s' ∧
      (Returned r → (∃ t i, s.tables p = some t ∧ handleLookup t handle 0 = .ok i ∧ r = .ok () ∧
          s'.tables = Function.update s.tables p (some (handleDiscard t i))) ∨
        (∀ t i, s.tables p = some t → handleLookup t handle 0 ≠ .ok i) ∧ r ≠ .ok ())) := by
  unfold Syscall.sysClose
  refine curHandles_post (fun hnone => ⟨h.settles, fun _ => Or.inr ⟨fun t i ht => ?_, nofun⟩⟩)
    (fun t ht => ?_)
  · rw [hnone] at ht
    cases ht
  cases hlookup : handleLookup t handle 0 with
  | error e =>
      refine ⟨h.settles, fun _ => Or.inr ⟨fun t' i ht' hok => ?_, nofun⟩⟩
      rw [ht] at ht'
      cases ht'
      rw [hlookup] at hok
      cases hok
  | ok i =>
      obtain ⟨-, hi, hlive, -, -⟩ := handleLookup_eq_ok.mp hlookup
      dsimp only
      by_cases hfile : (t i).type = .file
      · rw [if_pos hfile]
        have hat := Files.fileAt_of_file ht hi hfile
        obtain ⟨slot, -, hclosable⟩ := h.holds.closable (p, i) _ hat
        refine Eff.post_bind (closeFile_post hD h.nodes hclosable) ?_ ?_
        · rintro e s' ⟨hback, -⟩
          exact ⟨fun hreturned => absurd (hback hreturned) nofun,
            fun hreturned => absurd (hback hreturned) nofun⟩
        · rintro _ s' ⟨-, v', rfl, hnodes, hvnodes, herase⟩
          refine ⟨fun _ => ⟨?_, nofun⟩, fun _ => Or.inl ⟨t, i, ht, hlookup, rfl, rfl⟩⟩
          exact h.discard ht hnodes (h.holds.erase hat hclosable.slot_eq herase hvnodes)
      · rw [if_neg hfile]
        refine ⟨fun _ => ⟨?_, nofun⟩, fun _ => Or.inl ⟨t, i, ht, hlookup, rfl, rfl⟩⟩
        refine h.discard ht h.nodes ?_
        rw [← Files.fileAt_of_not_file ht hfile, Function.update_eq_self]
        exact h.holds

/-- {lit}`nx_handles_close_all` clears the slots that it is given, and no others. -/
theorem Accounted.closeHandles (h : Accounted drivers used s) (ht : s.tables p = some t)
    {is : List Nat} (his : ∀ i ∈ is, i < nxMaxHandles) :
    Eff.Post (closeHandles drivers p is) s (fun r s' => Returned r →
      r = .ok () ∧ Accounted drivers used s' ∧ ∃ t', s'.tables = Function.update s.tables p (some t') ∧
        (∀ i, i ∉ is → t' i = t i) ∧ ∀ i ∈ is, (t' i).type = .free) := by
  induction is generalizing s t with
  | nil =>
      refine fun _ => ⟨rfl, h, t, ?_, fun _ _ => rfl, nofun⟩
      rw [← ht, Function.update_eq_self]
      rfl
  | cons i is ih =>
      have hrest : ∀ j ∈ is, j < nxMaxHandles := fun j hj => his j (List.mem_cons_of_mem _ hj)
      unfold Syscall.closeHandles
      refine curHandles_post (fun hnone => ?_) (fun t₀ ht₀ => ?_)
      · rw [ht] at hnone
        cases hnone
      rw [ht] at ht₀
      cases ht₀
      by_cases hfree : (t i).type = .free
      · rw [if_neg (not_not.mpr hfree)]
        refine Eff.post_bind_ok rfl (Eff.post_mono (ih h ht hrest) (fun r s' hs' hreturned => ?_))
        obtain ⟨hr, haccounted, t', htables, hothers, hcleared⟩ := hs' hreturned
        refine ⟨hr, haccounted, t', htables, fun j hj => ?_, fun j hj => ?_⟩
        · exact hothers j (fun hmem => hj (List.mem_cons_of_mem _ hmem))
        · by_cases hmem : j ∈ is
          · exact hcleared j hmem
          · rcases List.mem_cons.mp hj with rfl | hj
            · rw [hothers j hmem, hfree]
            · exact absurd hj hmem
      · rw [if_pos hfree]
        have hlive := handleLookup_live (his i List.mem_cons_self) hfree (h.generation p t i ht)
        have hclose := h.sysClose hD p (makeHandle (t i).generation i)
        refine post_attemptStatus_bind hclose ?_ ?_ (fun _ _ => nofun) (fun _ _ => nofun)
        · rintro _ s' ⟨hsettles, hout⟩
          have haccounted := (hsettles trivial).1
          have htables : s'.tables = Function.update s.tables p (some (handleDiscard t i)) := by
            rcases hout trivial with ⟨t₁, i₁, ht₁, hlookup, -, htables⟩ | ⟨hno, -⟩
            · rw [ht] at ht₁
              cases ht₁
              rw [hlive] at hlookup
              cases hlookup
              exact htables
            · exact absurd hlive (hno t i ht)
          have ht' : s'.tables p = some (handleDiscard t i) := by
            rw [htables, Function.update_self]
          refine Eff.post_mono (ih haccounted ht' hrest) (fun r s'' hs'' hreturned => ?_)
          obtain ⟨hr, haccounted', t', htables', hothers, hfree'⟩ := hs'' hreturned
          refine ⟨hr, haccounted', t', ?_, fun j hj => ?_, fun j hj => ?_⟩
          · rw [htables', htables, Function.update_idem]
          · rw [hothers j (fun hmem => hj (List.mem_cons_of_mem _ hmem)), handleDiscard,
              Function.update_of_ne (fun heq => hj (by rw [heq]; exact List.mem_cons_self))]
          · by_cases hmem : j ∈ is
            · exact hfree' j hmem
            · rcases List.mem_cons.mp hj with rfl | hj
              · rw [hothers j hmem, handleDiscard, Function.update_self]
                rfl
              · exact absurd hj hmem
        · rintro e s' ⟨-, hout⟩
          rcases hout trivial with ⟨_, _, _, _, hok, -⟩ | ⟨hno, -⟩
          · cases hok
          · exact absurd hlive (hno t i ht)

omit hD in
/-- The table of a process without files may be replaced by one without files. -/
theorem Accounted.replaceTable (h : Accounted drivers used s) {o : Option HandleTable}
    (hbound : ∀ u, o = some u → p < processMax ∧ ∀ i, (u i).generation < 2 ^ 32)
    (hbefore : ∀ i, s.fileAt (p, i) = none) (hafter : ∀ u, o = some u → ∀ i, (u i).type ≠ .file) :
    Accounted drivers used { s with tables := Function.update s.tables p o } := by
  have hfiles : Files.fileAt { s with tables := Function.update s.tables p o } = s.fileAt := by
    funext q
    obtain ⟨p', i⟩ := q
    by_cases hp : p' = p
    · subst hp
      rw [hbefore i, Files.fileAt]
      dsimp only
      rw [Function.update_self]
      cases o with
      | none => rfl
      | some u => rw [Option.bind_some, if_neg (fun hfile => hafter u rfl i hfile.2)]
    · rw [Files.fileAt, Files.fileAt]
      dsimp only
      rw [Function.update_of_ne hp]
  refine ⟨h.nodes, fun p' u hu => ?_, fun p' u i hu => ?_, by rw [hfiles]; exact h.holds⟩
  · dsimp only at hu
    by_cases hp : p' = p
    · rw [hp, Function.update_self] at hu
      rw [hp]
      exact (hbound u hu).1
    · rw [Function.update_of_ne hp] at hu
      exact h.bound p' u hu
  · dsimp only at hu
    by_cases hp : p' = p
    · rw [hp, Function.update_self] at hu
      exact (hbound u hu).2 i
    · rw [Function.update_of_ne hp] at hu
      exact h.generation p' u i hu

/-- The end of a process gives back the slots of its files and no others. -/
theorem Accounted.terminate (h : Accounted drivers used s) (p : Nat) :
    Eff.Post (terminate drivers p) s (fun r s' => Settles drivers used s r s' ∧
      (r = .ok () → ∀ q, s'.fileAt q = if q.1 = p then none else s.fileAt q)) := by
  unfold Syscall.terminate
  by_cases hzero : p = 0
  · rw [if_pos hzero]
    exact ⟨h.settles, nofun⟩
  rw [if_neg hzero]
  refine Eff.post_gets_bind ?_
  cases ht : s.tables p with
  | none => exact ⟨h.settles, nofun⟩
  | some t =>
      dsimp only
      have hall := h.closeHandles hD ht
        (fun i hi => List.mem_range.mp hi)
      refine Eff.post_bind hall ?_ ?_
      · intro e s' hs'
        refine ⟨fun hreturned => ?_, nofun⟩
        exact absurd (hs' hreturned).1 nofun
      · intro _ s' hs'
        obtain ⟨-, haccounted, t', htables, -, hfree⟩ := hs' trivial
        have hclear : ∀ i, s'.fileAt (p, i) = none := by
          intro i
          rw [Files.fileAt, htables, Function.update_self, Option.bind_some, if_neg]
          rintro ⟨hi, hfile⟩
          rw [hfree i (List.mem_range.mpr hi)] at hfile
          cases hfile
        refine ⟨fun _ => ⟨haccounted.replaceTable nofun hclear nofun, nofun⟩, fun _ q => ?_⟩
        obtain ⟨p', i⟩ := q
        rw [Files.fileAt, Eff.modify_run]
        dsimp only
        by_cases hp : p' = p
        · rw [if_pos hp, hp, Function.update_self, Option.bind_none]
        · rw [if_neg hp, Function.update_of_ne hp, htables, Function.update_of_ne hp, Files.fileAt]

omit hD in
/-- The slots of a new table are free or for the console, and none has been released. -/
theorem handlesInit_slot (i : Nat) :
    (handlesInit i).type ≠ .file ∧ (handlesInit i).generation = 0 := by
  have hconsole : ∀ (t : HandleTable) rights fd,
      (∀ i, (t i).type ≠ .file ∧ (t i).generation = 0) → ∀ i,
        (addConsole rights fd t i).type ≠ .file ∧ (addConsole rights fd t i).generation = 0 := by
    intro t rights fd ht i
    unfold addConsole
    cases halloc : handleAlloc t .console rights with
    | error e => exact ht i
    | ok made =>
        obtain ⟨handle, j, t'⟩ := made
        obtain ⟨-, -, -, rfl⟩ := handleAlloc_eq_ok halloc
        dsimp only
        by_cases hij : i = j
        · rw [hij, Function.update_self, Function.update_self]
          exact ⟨HandleType.noConfusion, (ht j).2⟩
        · rw [Function.update_of_ne hij, Function.update_of_ne hij]
          exact ht i
  refine hconsole _ _ _ (hconsole _ _ _ (hconsole _ _ _ (fun i => ?_))) i
  exact ⟨HandleType.noConfusion, rfl⟩

omit hD in
/-- A new process has no file. -/
theorem Accounted.create (h : Accounted drivers used s) :
    Eff.Post create s (Settles drivers used s) := by
  unfold Syscall.create
  refine Eff.post_gets_bind ?_
  cases hfirst : firstFree (fun i => decide (i = 0) || (s.tables i).isSome) processMax with
  | none => exact h.settles
  | some p =>
      have hp := List.mem_range.mp (List.mem_of_find?_eq_some hfirst)
      have hnone : s.tables p = none := by
        have hsat := List.find?_some hfirst
        rw [Bool.not_eq_true', Bool.or_eq_false_iff] at hsat
        exact Option.isSome_eq_false_iff.mp hsat.2 |> Option.isNone_iff_eq_none.mp
      refine fun _ => ⟨h.replaceTable ?_ (fun i => ?_) ?_, nofun⟩
      · rintro u ⟨⟩
        refine ⟨hp, fun i => ?_⟩
        rw [(handlesInit_slot i).2]
        decide
      · rw [Files.fileAt, hnone, Option.bind_none]
      · rintro u ⟨⟩ i
        exact (handlesInit_slot i).1

/-- Every call keeps the accounts. -/
theorem Accounted.step (h : Accounted drivers used s) (c : FileCall) :
    Eff.Post (c.exec drivers) s (Settles drivers used s) := by
  have hvoid : ∀ {m : FilesM σ Nat}, Eff.Post m s (Settles drivers used s) →
      Eff.Post (m >>= fun _ => (pure () : FilesM σ Unit)) s (Settles drivers used s) := by
    intro m hm
    refine Eff.post_bind hm (fun e s' hs' => Settles.error hs') (fun a s' hs' => ?_)
    exact fun _ => ⟨(hs' trivial).1, nofun⟩
  cases c with
  | openFile p buffer path flags => exact hvoid (h.sysOpen hD p buffer path flags)
  | duplicate p handle mask => exact hvoid (h.sysDuplicateHandle hD p handle mask)
  | close p handle => exact Eff.post_mono (h.sysClose hD p handle) (fun r s' hs' => hs'.1)
  | create => exact hvoid h.create
  | exit p => exact Eff.post_mono (h.terminate hD p) (fun r s' hs' => hs'.1)

/-! ## Runs -/

/-- The runs of calls.  Between two calls the state of the drivers may change in the allowed ways; a
call that does not come back ends its run. -/
inductive FileRun (drivers : Nat → VfsOps σ) (start : Files σ → Prop) (between : σ → σ → Prop) :
    Files σ → Prop
  | start {s : Files σ} (h : start s) : FileRun drivers start between s
  | call {s : Files σ} (h : FileRun drivers start between s) (c : FileCall)
      (hreturned : Returned (c.exec drivers s).1) :
      FileRun drivers start between (c.exec drivers s).2
  | between {s : Files σ} {fs : σ} (h : FileRun drivers start between s)
      (hfs : between s.vfs.drv.fs fs) : FileRun drivers start between
        { s with vfs := { s.vfs with drv := { s.vfs.drv with fs := fs } } }

/-- The state before the first call: there is one process, no file is open, and the vnodes of the
dentries are in use. -/
structure Booted (used : σ → Finset Nat) (s : Files σ) : Prop where
  tables : s.tables = Function.update (fun _ => none) 0 (some handlesInit)
  nodes : NodesUsed s.vfs
  used_eq : used s.vfs.drv.fs = ∅

omit hD in
theorem Booted.accounted (h : Booted used s) : Accounted drivers used s := by
  have htable : ∀ p t, s.tables p = some t → p = 0 ∧ t = handlesInit := by
    intro p t ht
    rw [h.tables] at ht
    by_cases hp : p = 0
    · rw [hp, Function.update_self] at ht
      exact ⟨hp, (Option.some.inj ht).symm⟩
    · rw [Function.update_of_ne hp] at ht
      cases ht
  have hnone : ∀ q, s.fileAt q = none := by
    rintro ⟨p, i⟩
    cases ht : s.tables p with
    | none => rw [Files.fileAt, ht, Option.bind_none]
    | some t =>
        obtain ⟨-, rfl⟩ := htable p t ht
        exact Files.fileAt_of_not_file ht (handlesInit_slot i).1
  refine ⟨h.nodes, fun p t ht => ?_, fun p t i ht => ?_, fun q g hq => ?_, fun q q' g g' hq => ?_,
    fun slot hslot => ?_⟩
  · rw [(htable p t ht).1]
    decide
  · rw [(htable p t ht).2, (handlesInit_slot i).2]
    decide
  · rw [hnone] at hq
    cases hq
  · rw [hnone] at hq
    cases hq
  · rw [h.used_eq] at hslot
    cases hslot

/-- The accounts are in order after every run. -/
theorem FileRun.accounted {between : σ → σ → Prop}
    (hbetween : ∀ a b, between a b → used b = used a)
    (h : FileRun drivers (Booted used) between s) : Accounted drivers used s := by
  induction h with
  | start h => exact h.accounted
  | call _ c hreturned ih => exact (ih.step hD c hreturned).1
  | between _ hfs ih => exact ih.quiet ⟨ih.nodes, hbetween _ _ hfs, fun _ _ => rfl⟩

omit hD

/-! ## Counting -/

section Nyfs

open Nyfs

variable {D : Type} [Device D]

/-- The slots of the open files of the driver. -/
def nyfsUsed (fs : NyfsState D) : Finset Nat :=
  (Finset.range nyfsMaxHandles).filter (fun i => (fs.handleSlots i).inUse = true)

omit [Device D] in
theorem nyfsUsed_congr {a b : NyfsState D} (h : b.handleSlots = a.handleSlots) :
    nyfsUsed b = nyfsUsed a := by
  rw [nyfsUsed, nyfsUsed, h]

omit [Device D] in
theorem requireEntry_post (entry : Option VnodeData) (d : Drivers (NyfsState D)) :
    Eff.Post (requireEntry entry) d (fun _ d' => d' = d) := by
  unfold requireEntry
  split
  next => rfl
  next => rfl

omit [Device D] in
theorem vnodeEntry_post (vnode : Nat) (d : Drivers (NyfsState D)) :
    Eff.Post (vnodeEntry vnode) d (fun _ d' => d' = d) :=
  Eff.post_gets_bind (requireEntry_post _ d)

omit [Device D] in
theorem handleEntry_post (handle : Handle) (d : Drivers (NyfsState D)) :
    Eff.Post (handleEntry handle) d (fun _ d' => d' = d) :=
  Eff.post_gets_bind (requireEntry_post _ d)

/-- A call on a volume changes neither the vnodes nor the open files. -/
structure SamePools (d d' : Drivers (NyfsState D)) : Prop where
  vnodes : d'.vnodes = d.vnodes
  handleSlots : d'.fs.handleSlots = d.fs.handleSlots

omit [Device D] in
theorem onVolume_post {α : Type} (k : Nat) (m : NyfsM D α) (d : Drivers (NyfsState D)) :
    Eff.Post (onVolume k m) d (fun _ d' => SamePools d d') :=
  ⟨rfl, rfl⟩

theorem nyfsLookup_post (dir : Nat) (name : Name) (d : Drivers (NyfsState D)) :
    Eff.Post (nyfsLookup dir name) d (fun r d' => d'.fs.handleSlots = d.fs.handleSlots ∧
      (∀ n, (d.vnodes n).inUse = true → d'.vnodes n = d.vnodes n) ∧
      ∀ n, r = .ok (some n) → (d.vnodes n).inUse = false ∧ (d'.vnodes n).inUse = true) := by
  unfold nyfsLookup
  refine Eff.post_bind (vnodeEntry_post dir d) ?_ ?_
  · rintro e d' rfl
    exact ⟨rfl, fun _ _ => rfl, nofun⟩
  rintro ⟨vol, ino⟩ d' rfl
  refine Eff.post_gets_bind (Eff.post_bind (onVolume_post vol _ d') ?_ ?_)
  · rintro e d'' hpools
    exact ⟨hpools.handleSlots, fun n _ => by rw [hpools.vnodes], nofun⟩
  rintro ⟨childIno, child⟩ d'' hpools
  rcases makeVnode_cases d'' vol childIno (vnodeType child) with
    ⟨new, data, hnew, -, hrun⟩ | ⟨-, vnodes, hrun, hkept⟩
  · have hfree : (d'.vnodes new).inUse = false := by
      have hfound := List.find?_some hnew
      rw [hpools.vnodes] at hfound
      simpa using hfound
    refine Eff.post_of_eq hrun ⟨hpools.handleSlots, fun n hn => ?_, fun n hn => ?_⟩
    · have hne : n ≠ new := by
        rintro rfl
        rw [hfree] at hn
        cases hn
      rw [withVnode]
      dsimp only
      rw [Function.update_of_ne hne, hpools.vnodes]
    · cases hn
      refine ⟨hfree, ?_⟩
      rw [withVnode]
      dsimp only
      rw [Function.update_self]
  · refine Eff.post_of_eq hrun ⟨hpools.handleSlots, fun n hn => ?_, nofun⟩
    rcases hkept n with hsame | ⟨hfree, -⟩
    · dsimp only
      rw [hsame, hpools.vnodes]
    · rw [hpools.vnodes, hn] at hfree
      cases hfree

theorem nyfsOpen_post (vnode flags : Nat) (h : Handle) (d : Drivers (NyfsState D)) :
    Eff.Post (nyfsOpen vnode flags h) d (fun r d' => d'.vnodes = d.vnodes ∧
      (∀ e, r = .error e → nyfsUsed d'.fs = nyfsUsed d.fs) ∧
      ∀ h', r = .ok h' → ∃ slot, slot ∉ nyfsUsed d.fs ∧
        nyfsUsed d'.fs = insert slot (nyfsUsed d.fs) ∧ h' = { h with fsPrivate := some slot }) := by
  unfold nyfsOpen
  refine Eff.post_bind (vnodeEntry_post vnode d) ?_ ?_
  · rintro e d' rfl
    exact ⟨rfl, fun _ _ => rfl, nofun⟩
  rintro ⟨vol, ino⟩ d' rfl
  refine Eff.post_gets_bind (Eff.post_bind (onVolume_post vol _ d') ?_ ?_)
  · rintro e d'' hpools
    exact ⟨hpools.vnodes, fun _ _ => nyfsUsed_congr hpools.handleSlots, nofun⟩
  rintro _ d'' hpools
  have halloc := nyfsAllocHandleData_eq d'' ⟨some vol, ino⟩
  rw [hpools.handleSlots] at halloc
  cases hfirst : firstFree (fun i => (d'.fs.handleSlots i).inUse) nyfsMaxHandles with
  | none =>
      rw [hfirst] at halloc
      exact Eff.post_bind_ok halloc ⟨hpools.vnodes, fun _ _ => nyfsUsed_congr hpools.handleSlots, nofun⟩
  | some slot =>
      rw [hfirst] at halloc
      refine Eff.post_bind_ok halloc ⟨hpools.vnodes, nofun, ?_⟩
      rintro h' ⟨⟩
      have hlt := List.mem_range.mp (List.mem_of_find?_eq_some hfirst)
      have hfree : (d'.fs.handleSlots slot).inUse = false := by
        have hfound := List.find?_some hfirst
        simpa using hfound
      refine ⟨slot, ?_, ?_, rfl⟩
      · rw [nyfsUsed, Finset.mem_filter, hfree]
        exact fun hmem => Bool.noConfusion hmem.2
      · ext i
        rw [Finset.mem_insert, nyfsUsed, nyfsUsed, Finset.mem_filter, Finset.mem_filter]
        change i ∈ Finset.range nyfsMaxHandles ∧
          (Function.update d'.fs.handleSlots slot ⟨true, _⟩ i).inUse = true ↔ _
        by_cases hi : i = slot
        · rw [hi, Function.update_self]
          exact iff_of_true ⟨Finset.mem_range.mpr hlt, rfl⟩ (Or.inl rfl)
        · rw [Function.update_of_ne hi]
          exact ⟨Or.inr, fun hor => hor.resolve_left hi⟩

theorem nyfsWrite_post (h : Handle) (bytes : List UInt8) (d : Drivers (NyfsState D)) :
    Eff.Post (nyfsWrite h bytes) d (fun _ d' => SamePools d d') := by
  unfold nyfsWrite
  refine Eff.post_bind (handleEntry_post h d) ?_ ?_
  · rintro e d' rfl
    exact ⟨rfl, rfl⟩
  rintro ⟨vol, ino⟩ d' rfl
  exact onVolume_post vol _ d'

omit [Device D] in
theorem nyfsUsed_close (d : Drivers (NyfsState D)) {h : Handle} {slot : Nat}
    (hslot : h.fsPrivate = some slot) :
    (nyfsClose h d).2.vnodes = d.vnodes ∧
      nyfsUsed (nyfsClose h d).2.fs = (nyfsUsed d.fs).erase slot := by
  unfold nyfsClose
  rw [hslot, nyfsFreeHandleData]
  by_cases hlt : slot < nyfsMaxHandles
  · rw [if_pos hlt]
    refine ⟨rfl, ?_⟩
    ext i
    rw [Finset.mem_erase, nyfsUsed, nyfsUsed, Finset.mem_filter, Finset.mem_filter]
    change i ∈ Finset.range nyfsMaxHandles ∧
      (Function.update d.fs.handleSlots slot ⟨false, _⟩ i).inUse = true ↔ _
    by_cases hi : i = slot
    · rw [hi, Function.update_self]
      exact iff_of_false (fun hmem => Bool.noConfusion hmem.2) (fun hmem => hmem.1 rfl)
    · rw [Function.update_of_ne hi]
      exact ⟨fun hmem => ⟨hi, hmem⟩, fun hmem => hmem.2⟩
  · rw [if_neg hlt]
    refine ⟨rfl, ?_⟩
    rw [Finset.erase_eq_of_notMem]
    · rfl
    · rw [nyfsUsed, Finset.mem_filter, Finset.mem_range]
      exact fun hmem => hlt hmem.1

/-- The NyFS driver keeps the promises. -/
theorem nyfs_fileDrivers : FileDrivers (fun _ => nyfsOps (D := D)) nyfsUsed where
  lookup k call hcall dir name d := by
    cases hcall
    obtain ⟨hslots, hkept, hnew⟩ := nyfsLookup_post dir name d
    exact ⟨nyfsUsed_congr hslots, hkept, hnew⟩
  openFile k call hcall node flags h d := by
    cases hcall
    obtain ⟨hvnodes, hfailed, hopened⟩ := nyfsOpen_post node flags h d
    exact ⟨hvnodes, hfailed, fun h' hr => ⟨Option.some_ne_none _, hopened h' hr⟩⟩
  write k call hcall h bytes d := by
    cases hcall
    have hpools := nyfsWrite_post h bytes d
    exact ⟨hpools.vnodes, nyfsUsed_congr hpools.handleSlots⟩
  close k call hcall h d slot hslot := by
    cases hcall
    exact nyfsUsed_close d hslot

/-- The runs over the NyFS driver.  Between two calls everything of the driver but its open files may
change: the identity of the current process, the volumes and the data of the vnodes. -/
def NyfsRun : Files (NyfsState D) → Prop :=
  FileRun (fun _ => nyfsOps) (Booted nyfsUsed) (fun a b => b.handleSlots = a.handleSlots)

theorem NyfsRun.accounted {s : Files (NyfsState D)} (h : NyfsRun s) :
    Accounted (fun _ => nyfsOps) nyfsUsed s :=
  FileRun.accounted nyfs_fileDrivers (fun _ _ hsame => nyfsUsed_congr hsame) h

/-- The state at boot over an empty disk. -/
def bootFiles : Files (NyfsState MemoryDisk) where
  tables := Function.update (fun _ => none) 0 (some handlesInit)
  vfs :=
    { dentries := fun _ => Dentry.zero
      namespaces := fun _ => Namespace.zero
      defaultNamespace := none
      drv :=
        { vnodes := fun _ => Vnode.zero
          fs :=
            { volumes := fun _ => ⟨⟨fun _ => 0⟩, false, Superblock.zero, 0⟩
              vnodeData := fun _ => ⟨false, VnodeData.zero⟩
              handleSlots := fun _ => ⟨false, VnodeData.zero⟩
              cred := ⟨0, 0⟩ } } }

end Nyfs

end Syscall
end Nyxis
