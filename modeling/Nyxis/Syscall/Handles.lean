import Nyxis.Vfs.Calls

/-!
# The handle table of a process

The handle table of {lit}`kernel/syscall/handles.c` and the two system calls that fill it,
{lit}`sys_open` and {lit}`sys_duplicate_handle`, as far as they change the table.  What the
file system answers is an argument of these calls here; {lit}`Nyxis.Syscall.Files` calls
the file system.

A handle value is the index of a slot together with the generation of the slot at the
time of issue.  The history of a table counts how often each slot has been released, so
that a handle is the pair of a slot and the number of releases before its issue.

Main results:

- Theorem {lit}`History.Sound.step`: each call keeps table and history in agreement.
- Theorem {lit}`handles_safe`: closed values stay refused, accepted ones denote what they
  were issued for, and duplication never adds a right.
-/

namespace Nyxis
namespace Syscall

open Vfs (Handle firstFree)

/-! ## Data -/

def nxMaxHandles : Nat := 32

def nxRightRead : Nat := 0x01
def nxRightWrite : Nat := 0x02
def nxRightSeek : Nat := 0x04
def nxRightStat : Nat := 0x08
def nxRightDup : Nat := 0x10
def nxRightAll : Nat := 0x1F

def nxORead : Nat := 0x1
def nxOWrite : Nat := 0x2
def nxOMask : Nat := 0x3

/-- {lit}`NX_HANDLE_FREE`, {lit}`NX_HANDLE_CONSOLE` and {lit}`NX_HANDLE_FILE`. -/
inductive HandleType
  | free
  | console
  | file
deriving DecidableEq, Repr

/-- {lit}`nx_handle_t`. -/
structure HandleSlot where
  type : HandleType
  rights : Nat
  generation : Nat
  consoleFd : Nat
  file : Handle
deriving DecidableEq

/-- A slot that {lit}`memset` has cleared. -/
def HandleSlot.zero : HandleSlot where
  type := .free
  rights := 0
  generation := 0
  consoleFd := 0
  file := Handle.cleared

/-- {lit}`nx_handle_table_t`. -/
abbrev HandleTable := Nat → HandleSlot

/-! ## The calls of the table -/

/-- {lit}`make_handle`. -/
def makeHandle (generation index : Nat) : Nat :=
  generation % 2 ^ 32 * 2 ^ 32 + index % 2 ^ 32

/-- {lit}`nx_handle_alloc`: the handle value, its slot and the table. -/
def handleAlloc (t : HandleTable) (type : HandleType) (rights : Nat) :
    Except Nstatus (Nat × Nat × HandleTable) :=
  match firstFree (fun i => (t i).type ≠ .free) nxMaxHandles with
  | none => .error .NoutOfMemory
  | some i =>
      .ok (makeHandle (t i).generation i, i, Function.update t i
        { HandleSlot.zero with
          generation := (t i).generation, type := type, rights := rights &&& nxRightAll })

/-- {lit}`nx_handle_lookup`: the slot of an accepted handle value. -/
def handleLookup (t : HandleTable) (handle required : Nat) : Except Nstatus Nat :=
  let index := handle % 2 ^ 32
  let generation := handle / 2 ^ 32 % 2 ^ 32
  if nxMaxHandles ≤ index then
    .error .NinvalidArg
  else if (t index).type = .free ∨ (t index).generation ≠ generation then
    .error .NinvalidArg
  else if (t index).rights &&& required ≠ required then
    .error .Npermission
  else
    .ok index

/-- {lit}`nx_handle_discard`: clear a slot and make its value stale. -/
def handleDiscard (t : HandleTable) (i : Nat) : HandleTable :=
  Function.update t i { HandleSlot.zero with generation := ((t i).generation + 1) % 2 ^ 32 }

/-- The table after {lit}`nx_handle_close`; the file behind the slot is closed as well. -/
def handleClose (t : HandleTable) (handle : Nat) : Except Nstatus HandleTable :=
  match handleLookup t handle 0 with
  | .error e => .error e
  | .ok i => .ok (handleDiscard t i)

/-- One round of {lit}`nx_handles_close_all`. -/
def closeStep (t : HandleTable) (i : Nat) : HandleTable :=
  if (t i).type = .free then
    t
  else
    match handleClose t (makeHandle (t i).generation i) with
    | .ok t' => t'
    | .error _ => t

/-- The table after {lit}`nx_handles_close_all`. -/
def handlesCloseAll (t : HandleTable) : HandleTable :=
  (List.range nxMaxHandles).foldl closeStep t

/-- Make a console handle, as {lit}`nx_handles_init` does three times. -/
def addConsole (rights fd : Nat) (t : HandleTable) : HandleTable :=
  match handleAlloc t .console rights with
  | .ok (_, i, t') => Function.update t' i { t' i with consoleFd := fd }
  | .error _ => t

/-- {lit}`nx_handles_init`: standard input, output and error. -/
def handlesInit : HandleTable :=
  addConsole (nxRightWrite ||| nxRightStat ||| nxRightDup) 2
    (addConsole (nxRightWrite ||| nxRightStat ||| nxRightDup) 1
      (addConsole (nxRightRead ||| nxRightStat ||| nxRightDup) 0 (fun _ => HandleSlot.zero)))

/-- {lit}`nx_handles_count`. -/
def handlesCount (t : HandleTable) : Nat :=
  ((List.range nxMaxHandles).filter (fun i => (t i).type ≠ .free)).length

/-! ## The system calls -/

/-- The rights that {lit}`sys_open` grants. -/
def openRights (flags : Nat) : Nat :=
  nxRightSeek ||| nxRightStat ||| nxRightDup |||
    (if flags &&& nxORead ≠ 0 then nxRightRead else 0) |||
    (if flags &&& nxOWrite ≠ 0 then nxRightWrite else 0)

/-- The end of {lit}`sys_open`: an open file gets a slot. -/
def openSlot (t : HandleTable) (flags : Nat) (file : Handle) :
    Except Nstatus (Nat × Nat × HandleTable) :=
  match handleAlloc t .file (openRights flags) with
  | .error e => .error e
  | .ok (handle, i, t') => .ok (handle, i, Function.update t' i { t' i with file := file })

/-- The first half of {lit}`sys_duplicate_handle`: the source slot, the new handle value, the
new slot and the table. -/
def duplicateSlot (t : HandleTable) (handle mask : Nat) :
    Except Nstatus (Nat × Nat × Nat × HandleTable) :=
  -- the rights outside the known ones are refused, not dropped
  if mask &&& nxRightAll ≠ mask then
    .error .NinvalidArg
  else
    match handleLookup t handle nxRightDup with
    | .error e => .error e
    | .ok i =>
        match handleAlloc t (t i).type ((t i).rights &&& mask) with
        | .error e => .error e
        | .ok (handle', j, t') => .ok (i, handle', j, t')

/-- The second half of {lit}`sys_duplicate_handle`, given what {lit}`vfs_reopen` returns. -/
def fillDuplicate (t : HandleTable) (i j : Nat) (file : Except Nstatus Handle) :
    Except Nstatus HandleTable :=
  if (t i).type = .console then
    .ok (Function.update t j { t j with consoleFd := (t i).consoleFd })
  else
    match file with
    | .error e => .error e
    | .ok file => .ok (Function.update t j { t j with file := file })

/-! ## Handle values -/

theorem makeHandle_index (e : Nat) {i : Nat} (hi : i < nxMaxHandles) :
    makeHandle e i % 2 ^ 32 = i := by
  unfold makeHandle nxMaxHandles at *
  omega

theorem makeHandle_generation (e i : Nat) : makeHandle e i / 2 ^ 32 % 2 ^ 32 = e % 2 ^ 32 := by
  unfold makeHandle
  omega

/-- A value is split into slot and generation without loss. -/
theorem eq_makeHandle {v : Nat} (hv : v < 2 ^ 64) :
    v = makeHandle (v / 2 ^ 32 % 2 ^ 32) (v % 2 ^ 32) := by
  unfold makeHandle
  omega

/-- Below the wrap of the generation, a value belongs to one slot and one epoch. -/
theorem makeHandle_inj {e e' i j : Nat} (he : e < 2 ^ 32) (he' : e' < 2 ^ 32)
    (hi : i < nxMaxHandles) (hj : j < nxMaxHandles) (h : makeHandle e i = makeHandle e' j) :
    e = e' ∧ i = j := by
  unfold makeHandle nxMaxHandles at *
  omega

/-- When a lookup accepts a value. -/
theorem handleLookup_eq_ok {t : HandleTable} {v required i : Nat} :
    handleLookup t v required = .ok i ↔
      v % 2 ^ 32 = i ∧ i < nxMaxHandles ∧ (t i).type ≠ .free ∧
        (t i).generation = v / 2 ^ 32 % 2 ^ 32 ∧ (t i).rights &&& required = required := by
  unfold handleLookup
  dsimp only
  split
  next hbig =>
    constructor
    · intro h
      cases h
    · rintro ⟨rfl, hlt, -⟩
      exact absurd hlt (Nat.not_lt.mpr hbig)
  next hsmall =>
    split
    next hbad =>
      constructor
      · intro h
        cases h
      · rintro ⟨rfl, -, htype, hgen, -⟩
        rcases hbad with hbad | hbad
        · exact absurd hbad htype
        · exact absurd hgen hbad
    next hgood =>
      rw [not_or, not_not] at hgood
      split
      next hperm =>
        constructor
        · intro h
          cases h
        · rintro ⟨rfl, -, -, -, hrights⟩
          exact absurd hrights hperm
      next hperm =>
        constructor
        · intro h
          cases h
          exact ⟨rfl, Nat.not_le.mp hsmall, hgood.1, hgood.2, not_not.mp hperm⟩
        · rintro ⟨rfl, -⟩
          rfl

/-- A value whose slot has moved on is refused. -/
theorem handleLookup_stale {t : HandleTable} {e i required : Nat} (hi : i < nxMaxHandles)
    (hgen : (t i).generation ≠ e % 2 ^ 32) :
    handleLookup t (makeHandle e i) required = .error .NinvalidArg := by
  unfold handleLookup
  dsimp only
  rw [makeHandle_index e hi, makeHandle_generation, if_neg (Nat.not_le.mpr hi),
    if_pos (Or.inr hgen)]

/-- The value of a live slot is accepted. -/
theorem handleLookup_live {t : HandleTable} {i : Nat} (hi : i < nxMaxHandles)
    (htype : (t i).type ≠ .free) (hgen : (t i).generation < 2 ^ 32) :
    handleLookup t (makeHandle (t i).generation i) 0 = .ok i := by
  refine handleLookup_eq_ok.mpr ⟨makeHandle_index _ hi, hi, htype, ?_, Nat.and_zero _⟩
  rw [makeHandle_generation, Nat.mod_eq_of_lt hgen]

/-- What an allocation does. -/
theorem handleAlloc_eq_ok {t t' : HandleTable} {type : HandleType} {rights v i : Nat}
    (h : handleAlloc t type rights = .ok (v, i, t')) :
    i < nxMaxHandles ∧ (t i).type = .free ∧ v = makeHandle (t i).generation i ∧
      t' = Function.update t i
        { HandleSlot.zero with
          generation := (t i).generation, type := type, rights := rights &&& nxRightAll } := by
  unfold handleAlloc at h
  split at h
  next => cases h
  next j hfree =>
    have hmem := List.mem_of_find?_eq_some hfree
    have hsat := List.find?_some hfree
    rw [List.mem_range] at hmem
    injection h with h
    injection h with hv h
    injection h with hi ht
    subst hi
    refine ⟨hmem, ?_, hv.symm, ht.symm⟩
    simpa using hsat

/-! ## Histories -/

/-- What a handle denotes, apart from its rights and the position in the file. -/
def HandleSlot.object (s : HandleSlot) : HandleSlot :=
  { s with rights := 0, generation := 0, file := { s.file with offset := 0 } }

/-- A handle at the time of its issue: its slot, how often the slot had been released, what
it denotes, its rights, the rights of the open it stems from, and the handle it has been
duplicated from. -/
structure Issue where
  index : Nat
  epoch : Nat
  object : HandleSlot
  rights : Nat
  granted : Nat
  source : Option (Nat × Nat)
deriving DecidableEq

/-- The slot and the epoch of a handle. -/
def Issue.key (r : Issue) : Nat × Nat :=
  (r.index, r.epoch)

/-- The value that has been handed out. -/
def Issue.value (r : Issue) : Nat :=
  makeHandle r.epoch r.index

/-- A table with its past: all handles issued, the values closed or discarded, the number of
releases of each slot, and the rights of the open that the handle in a slot stems from. -/
structure History where
  table : HandleTable
  issued : List Issue
  closed : List Nat
  releases : Nat → Nat
  granted : Nat → Nat

/-- A handle is issued in a slot. -/
def History.issue (h : History) (t : HandleTable) (i granted : Nat) (source : Option (Nat × Nat)) :
    History :=
  { h with
    table := t
    issued := ⟨i, h.releases i, (t i).object, (t i).rights, granted, source⟩ :: h.issued
    granted := Function.update h.granted i granted }

/-- A slot is released. -/
def History.release (h : History) (i : Nat) : History :=
  { h with
    table := handleDiscard h.table i
    closed := if (h.table i).type = .free then h.closed
      else makeHandle (h.table i).generation i :: h.closed
    releases := Function.update h.releases i (h.releases i + 1) }

/-- A handle is closed. -/
def History.close (h : History) (handle : Nat) : History :=
  match handleLookup h.table handle 0 with
  | .error _ => h
  | .ok i => h.release i

/-- One round of closing all handles. -/
def History.closeStep (h : History) (i : Nat) : History :=
  if (h.table i).type = .free then h else h.close (makeHandle (h.table i).generation i)

/-- The position of a file is moved. -/
def moveSlot (t : HandleTable) (i offset : Nat) : HandleTable :=
  let file : Handle := { (t i).file with offset := offset }
  Function.update t i { t i with file := file }

/-- The calls that reach a handle table.  A read, a write or a seek moves the position of
the file. -/
inductive Call
  | openFile (flags : Nat) (file : Handle)
  | duplicate (handle mask : Nat) (file : Except Nstatus Handle)
  | lookup (handle required : Nat)
  | close (handle : Nat)
  | discard (i : Nat)
  | closeAll
  | move (handle required offset : Nat)

/-- The history after a call. -/
def Call.run (h : History) : Call → History
  | .openFile flags file =>
      match openSlot h.table flags file with
      | .error _ => h
      | .ok (_, i, t) => h.issue t i (openRights flags) none
  | .duplicate handle mask file =>
      match duplicateSlot h.table handle mask with
      | .error _ => h
      | .ok (i, _, j, t) =>
          match fillDuplicate t i j file with
          | .ok t' => h.issue t' j (h.granted i) (some (i, h.releases i))
          | .error _ => (h.issue t j (h.granted i) (some (i, h.releases i))).release j
  | .lookup _ _ => h
  | .close handle => h.close handle
  | .discard i => if i < nxMaxHandles then h.release i else h
  | .closeAll => (List.range nxMaxHandles).foldl History.closeStep h
  | .move handle required offset =>
      match handleLookup h.table handle required with
      | .error _ => h
      | .ok i => { h with table := moveSlot h.table i offset }

/-- The history of a table after its initialisation. -/
def History.start : History where
  table := handlesInit
  issued := [0, 1, 2].map (fun i =>
    ⟨i, 0, (handlesInit i).object, (handlesInit i).rights, (handlesInit i).rights, none⟩)
  closed := []
  releases := fun _ => 0
  granted := fun i => (handlesInit i).rights

/-- The history after a run of calls. -/
def History.runs (h : History) (calls : List Call) : History :=
  calls.foldl Call.run h

theorem History.close_table (h : History) (handle : Nat) :
    (h.close handle).table =
      match handleClose h.table handle with
      | .ok t => t
      | .error _ => h.table := by
  unfold History.close handleClose
  generalize handleLookup h.table handle 0 = found
  cases found with
  | error e => rfl
  | ok i => rfl

/-- Closing all handles of a history closes those of its table. -/
theorem History.foldl_closeStep_table (is : List Nat) (h : History) :
    (is.foldl History.closeStep h).table = is.foldl Syscall.closeStep h.table := by
  induction is generalizing h with
  | nil => rfl
  | cons i is ih =>
      have hstep : (h.closeStep i).table = Syscall.closeStep h.table i := by
        unfold History.closeStep Syscall.closeStep
        split
        next => rfl
        next => exact h.close_table _
      rw [List.foldl_cons, List.foldl_cons, ih, hstep]

/-! ## Table and history agree -/

/-- Where the rights of a handle come from: from its open, or from the handle it has been
duplicated from. -/
def Issue.Stems (issued : List Issue) (r : Issue) : Prop :=
  match r.source with
  | none => r.granted = r.rights
  | some s => ∃ q ∈ issued, q.key = s ∧ r.rights &&& q.rights = r.rights ∧ r.granted = q.granted

/-- The invariant: the generation of a slot counts its releases, the handle in a slot has
been issued in the current epoch, and the closed values belong to earlier epochs. -/
structure History.Sound (h : History) : Prop where
  generation : ∀ i < nxMaxHandles, (h.table i).generation = h.releases i % 2 ^ 32
  live : ∀ i < nxMaxHandles, (h.table i).type ≠ .free → ∃ r ∈ h.issued,
    r.key = (i, h.releases i) ∧ r.object = (h.table i).object ∧ r.rights = (h.table i).rights ∧
      r.granted = h.granted i
  past : ∀ r ∈ h.issued, r.index < nxMaxHandles ∧ r.epoch ≤ h.releases r.index ∧
    ((h.table r.index).type = .free → r.epoch < h.releases r.index)
  once : (h.issued.map Issue.key).Nodup
  rights : ∀ r ∈ h.issued, r.rights &&& r.granted = r.rights
  stems : ∀ r ∈ h.issued, r.Stems h.issued
  closed : ∀ v ∈ h.closed, ∃ i < nxMaxHandles, ∃ e < h.releases i, v = makeHandle e i

variable {h : History}

theorem Issue.Stems.mono {issued issued' : List Issue} {r : Issue} (hr : r.Stems issued)
    (hsub : issued ⊆ issued') : r.Stems issued' := by
  unfold Issue.Stems at hr ⊢
  split
  next hnone =>
    rw [hnone] at hr
    exact hr
  next s hsome =>
    rw [hsome] at hr
    obtain ⟨q, hq, hkey, hrights, hgranted⟩ := hr
    exact ⟨q, hsub hq, hkey, hrights, hgranted⟩

/-- Issuing a handle in a free slot. -/
theorem History.Sound.issue (hs : h.Sound) {t : HandleTable} {i granted : Nat}
    {source : Option (Nat × Nat)} (hi : i < nxMaxHandles) (hfree : (h.table i).type = .free)
    (hothers : ∀ j, j ≠ i → t j = h.table j) (htype : (t i).type ≠ .free)
    (hgen : (t i).generation = (h.table i).generation)
    (hrights : (t i).rights &&& granted = (t i).rights)
    (hstems : Issue.Stems h.issued
      ⟨i, h.releases i, (t i).object, (t i).rights, granted, source⟩) :
    (h.issue t i granted source).Sound where
  generation j hj := by
    change (t j).generation = _
    by_cases hji : j = i
    · rw [hji, hgen]
      exact hs.generation i hi
    · rw [hothers j hji]
      exact hs.generation j hj
  live j hj hlive := by
    change (t j).type ≠ .free at hlive
    by_cases hji : j = i
    · subst hji
      refine ⟨_, List.mem_cons_self .., rfl, rfl, rfl, ?_⟩
      exact (Function.update_self j granted h.granted).symm
    · rw [hothers j hji] at hlive
      obtain ⟨r, hr, hkey, hobject, hright, hgranted⟩ := hs.live j hj hlive
      refine ⟨r, List.mem_cons_of_mem _ hr, hkey, ?_, ?_, ?_⟩
      · change r.object = (t j).object
        rw [hothers j hji, hobject]
      · change r.rights = (t j).rights
        rw [hothers j hji, hright]
      · change r.granted = Function.update h.granted i granted j
        rw [Function.update_of_ne hji, hgranted]
  past r hr := by
    rcases List.mem_cons.mp hr with rfl | hr
    · exact ⟨hi, Nat.le_refl _, fun hcon => absurd hcon htype⟩
    · obtain ⟨hlt, hle, hpast⟩ := hs.past r hr
      refine ⟨hlt, hle, fun hcon => ?_⟩
      change (t r.index).type = .free at hcon
      by_cases hri : r.index = i
      · rw [hri] at hcon
        exact absurd hcon htype
      · rw [hothers _ hri] at hcon
        exact hpast hcon
  once := by
    refine List.nodup_cons.mpr ⟨fun hmem => ?_, hs.once⟩
    obtain ⟨r, hr, hkey⟩ := List.mem_map.mp hmem
    obtain ⟨hindex, hepoch⟩ := Prod.mk.inj hkey
    change r.index = i at hindex
    change r.epoch = h.releases i at hepoch
    have hpast := (hs.past r hr).2.2
    rw [hindex] at hpast
    have := hpast hfree
    omega
  rights r hr := by
    rcases List.mem_cons.mp hr with rfl | hr
    · exact hrights
    · exact hs.rights r hr
  stems r hr := by
    rcases List.mem_cons.mp hr with rfl | hr
    · exact hstems.mono (List.subset_cons_self _ _)
    · exact (hs.stems r hr).mono (List.subset_cons_self _ _)
  closed := hs.closed

/-- Releasing a slot. -/
theorem History.Sound.release (hs : h.Sound) {i : Nat} (hi : i < nxMaxHandles) :
    (h.release i).Sound where
  generation j hj := by
    change (handleDiscard h.table i j).generation = Function.update h.releases i _ j % 2 ^ 32
    by_cases hji : j = i
    · rw [hji, handleDiscard, Function.update_self, Function.update_self]
      dsimp only
      rw [hs.generation i hi, Nat.mod_add_mod]
    · rw [handleDiscard, Function.update_of_ne hji, Function.update_of_ne hji]
      exact hs.generation j hj
  live j hj hlive := by
    change (handleDiscard h.table i j).type ≠ .free at hlive
    by_cases hji : j = i
    · rw [hji, handleDiscard, Function.update_self] at hlive
      exact absurd rfl hlive
    · rw [handleDiscard, Function.update_of_ne hji] at hlive
      obtain ⟨r, hr, hkey, hobject, hright, hgranted⟩ := hs.live j hj hlive
      refine ⟨r, hr, ?_, ?_, ?_, hgranted⟩
      · change r.key = (j, Function.update h.releases i _ j)
        rw [Function.update_of_ne hji, hkey]
      · change r.object = (handleDiscard h.table i j).object
        rw [handleDiscard, Function.update_of_ne hji, hobject]
      · change r.rights = (handleDiscard h.table i j).rights
        rw [handleDiscard, Function.update_of_ne hji, hright]
  past r hr := by
    obtain ⟨hlt, hle, hpast⟩ := hs.past r hr
    refine ⟨hlt, ?_, fun hcon => ?_⟩
    · change r.epoch ≤ Function.update h.releases i _ r.index
      by_cases hri : r.index = i
      · rw [hri] at hle ⊢
        rw [Function.update_self]
        omega
      · rw [Function.update_of_ne hri]
        exact hle
    · change r.epoch < Function.update h.releases i _ r.index
      change (handleDiscard h.table i r.index).type = .free at hcon
      by_cases hri : r.index = i
      · rw [hri] at hle ⊢
        rw [Function.update_self]
        omega
      · rw [handleDiscard, Function.update_of_ne hri] at hcon
        rw [Function.update_of_ne hri]
        exact hpast hcon
  once := hs.once
  rights := hs.rights
  stems := hs.stems
  closed v hv := by
    have hgrow : ∀ j e, e < h.releases j →
        e < Function.update h.releases i (h.releases i + 1) j := by
      intro j e he
      by_cases hji : j = i
      · rw [hji] at he ⊢
        rw [Function.update_self]
        omega
      · rw [Function.update_of_ne hji]
        exact he
    have hold : v ∈ h.closed ∨ v = makeHandle (h.table i).generation i := by
      change v ∈ (if (h.table i).type = .free then h.closed
        else makeHandle (h.table i).generation i :: h.closed) at hv
      split at hv
      next => exact Or.inl hv
      next =>
        rcases List.mem_cons.mp hv with hv | hv
        · exact Or.inr hv
        · exact Or.inl hv
    rcases hold with hold | hold
    · obtain ⟨j, hj, e, he, heq⟩ := hs.closed v hold
      exact ⟨j, hj, e, hgrow j e he, heq⟩
    · refine ⟨i, hi, h.releases i, ?_, ?_⟩
      · change h.releases i < Function.update h.releases i _ i
        rw [Function.update_self]
        exact Nat.lt_succ_self _
      · rw [hold, hs.generation i hi, makeHandle, makeHandle, Nat.mod_mod]

/-- Moving the position of a file. -/
theorem History.Sound.move (hs : h.Sound) (i offset : Nat) :
    ({ h with table := moveSlot h.table i offset } : History).Sound := by
  have hsame : ∀ j, (moveSlot h.table i offset j).generation = (h.table j).generation ∧
      (moveSlot h.table i offset j).type = (h.table j).type ∧
      (moveSlot h.table i offset j).object = (h.table j).object ∧
      (moveSlot h.table i offset j).rights = (h.table j).rights := by
    intro j
    unfold moveSlot
    by_cases hji : j = i
    · rw [hji, Function.update_self]
      exact ⟨rfl, rfl, rfl, rfl⟩
    · rw [Function.update_of_ne hji]
      exact ⟨rfl, rfl, rfl, rfl⟩
  refine ⟨?_, ?_, ?_, hs.once, hs.rights, hs.stems, hs.closed⟩
  · intro j hj
    rw [(hsame j).1]
    exact hs.generation j hj
  · intro j hj hlive
    rw [(hsame j).2.1] at hlive
    rw [(hsame j).2.2.1, (hsame j).2.2.2]
    exact hs.live j hj hlive
  · intro r hr
    rw [(hsame _).2.1]
    exact hs.past r hr

theorem History.Sound.close (hs : h.Sound) (handle : Nat) : (h.close handle).Sound := by
  unfold History.close
  cases hfound : handleLookup h.table handle 0 with
  | error e => exact hs
  | ok i => exact hs.release (handleLookup_eq_ok.mp hfound).2.1

theorem History.Sound.closeSteps (hs : h.Sound) (is : List Nat) :
    (is.foldl History.closeStep h).Sound := by
  induction is generalizing h with
  | nil => exact hs
  | cons i is ih =>
      refine ih ?_
      unfold History.closeStep
      split
      next => exact hs
      next => exact hs.close _

theorem openRights_known (flags : Nat) : openRights flags &&& nxRightAll = openRights flags := by
  unfold openRights
  split
  next =>
    split
    next => decide
    next => decide
  next =>
    split
    next => decide
    next => decide

theorem History.Sound.openFile (hs : h.Sound) (flags : Nat) (file : Handle) :
    (Call.run h (.openFile flags file)).Sound := by
  unfold Call.run openSlot
  dsimp only
  cases halloc : handleAlloc h.table .file (openRights flags) with
  | error e => exact hs
  | ok found =>
      obtain ⟨v, i, t⟩ := found
      obtain ⟨hi, hfree, -, rfl⟩ := handleAlloc_eq_ok halloc
      refine hs.issue hi hfree ?_ ?_ ?_ ?_ ?_
      · intro j hj
        rw [Function.update_of_ne hj, Function.update_of_ne hj]
      · rw [Function.update_self, Function.update_self]
        exact HandleType.noConfusion
      · rw [Function.update_self, Function.update_self]
      · rw [Function.update_self, Function.update_self]
        dsimp only
        rw [openRights_known, Nat.and_self]
      · rw [Function.update_self, Function.update_self]
        change openRights flags = openRights flags &&& nxRightAll
        rw [openRights_known]

/-- What the first half of a duplication does. -/
theorem duplicateSlot_eq_ok {t t' : HandleTable} {handle mask i v j : Nat}
    (h : duplicateSlot t handle mask = .ok (i, v, j, t')) :
    i < nxMaxHandles ∧ (t i).type ≠ .free ∧ j < nxMaxHandles ∧ (t j).type = .free ∧
      t' = Function.update t j
        { HandleSlot.zero with
          generation := (t j).generation
          type := (t i).type
          rights := (t i).rights &&& mask &&& nxRightAll } := by
  unfold duplicateSlot at h
  split at h
  next => cases h
  next =>
    cases hfound : handleLookup t handle nxRightDup with
    | error e =>
        rw [hfound] at h
        cases h
    | ok k =>
        rw [hfound] at h
        dsimp only at h
        cases halloc : handleAlloc t (t k).type ((t k).rights &&& mask) with
        | error e =>
            rw [halloc] at h
            cases h
        | ok made =>
            obtain ⟨v', j', t''⟩ := made
            rw [halloc] at h
            cases h
            obtain ⟨-, hi, hlive, -⟩ := handleLookup_eq_ok.mp hfound
            obtain ⟨hj, hfree, -, ht⟩ := handleAlloc_eq_ok halloc
            exact ⟨hi, hlive, hj, hfree, ht⟩

/-- The second half of a duplication fills in what the new handle denotes. -/
theorem fillDuplicate_eq_ok {t t' : HandleTable} {i j : Nat} {file : Except Nstatus Handle}
    (h : fillDuplicate t i j file = .ok t') :
    ∃ s, t' = Function.update t j s ∧ s.type = (t j).type ∧ s.generation = (t j).generation ∧
      s.rights = (t j).rights := by
  unfold fillDuplicate at h
  split at h
  next =>
    cases h
    exact ⟨_, rfl, rfl, rfl, rfl⟩
  next =>
    cases file with
    | error e => cases h
    | ok file =>
        cases h
        exact ⟨_, rfl, rfl, rfl, rfl⟩

theorem and_and_self_left (a b c : Nat) : a &&& b &&& c &&& a = a &&& b &&& c := by
  rw [Nat.and_comm (a &&& b &&& c), ← Nat.and_assoc, ← Nat.and_assoc, Nat.and_self]

theorem History.Sound.duplicate (hs : h.Sound) (handle mask : Nat)
    (file : Except Nstatus Handle) : (Call.run h (.duplicate handle mask file)).Sound := by
  unfold Call.run
  dsimp only
  cases hdup : duplicateSlot h.table handle mask with
  | error e => exact hs
  | ok found =>
      obtain ⟨i, v, j, t⟩ := found
      obtain ⟨hi, hlive, hj, hfree, rfl⟩ := duplicateSlot_eq_ok hdup
      obtain ⟨q, hq, hkey, -, hqrights, hqgranted⟩ := hs.live i hi hlive
      have hsub := and_and_self_left (h.table i).rights mask nxRightAll
      have hgranted : (h.table i).rights &&& mask &&& nxRightAll &&& h.granted i =
          (h.table i).rights &&& mask &&& nxRightAll := by
        have := hs.rights q hq
        rw [hqrights, hqgranted] at this
        rw [← hsub, Nat.and_assoc, this]
      -- any table that fills the new slot is issued soundly
      have hissue : ∀ s : HandleSlot, s.type ≠ .free → s.generation = (h.table j).generation →
          s.rights = (h.table i).rights &&& mask &&& nxRightAll →
          (h.issue (Function.update h.table j s) j (h.granted i)
            (some (i, h.releases i))).Sound := by
        intro s htype hgen hrights
        refine hs.issue hj hfree (fun k hk => Function.update_of_ne hk _ _) ?_ ?_ ?_ ?_
        · rwa [Function.update_self]
        · rwa [Function.update_self]
        · rw [Function.update_self, hrights, hgranted]
        · refine ⟨q, hq, hkey, ?_, hqgranted.symm⟩
          change (Function.update h.table j s j).rights &&& q.rights =
            (Function.update h.table j s j).rights
          rw [Function.update_self, hrights, hqrights, hsub]
      dsimp only
      cases hfill : fillDuplicate _ i j file with
      | error e => exact (hissue _ (by exact hlive) (by rfl) (by rfl)).release hj
      | ok t' =>
          obtain ⟨s, rfl, htype, hgen, hrights⟩ := fillDuplicate_eq_ok hfill
          rw [Function.update_self] at htype hgen hrights
          dsimp only
          rw [Function.update_idem]
          exact hissue s (by rw [htype]; exact hlive) hgen hrights

/-- Each call keeps table and history in agreement. -/
theorem History.Sound.step (hs : h.Sound) (call : Call) : (call.run h).Sound := by
  cases call with
  | openFile flags file => exact hs.openFile flags file
  | duplicate handle mask file => exact hs.duplicate handle mask file
  | lookup handle required => exact hs
  | close handle => exact hs.close handle
  | discard i =>
      unfold Call.run
      dsimp only
      split
      next hi => exact hs.release hi
      next => exact hs
  | closeAll => exact hs.closeSteps _
  | move handle required offset =>
      unfold Call.run
      dsimp only
      cases handleLookup h.table handle required with
      | error e => exact hs
      | ok i => exact hs.move i offset

theorem History.Sound.runs (hs : h.Sound) (calls : List Call) : (h.runs calls).Sound := by
  induction calls generalizing h with
  | nil => exact hs
  | cons call calls ih => exact ih (hs.step call)

theorem History.start_sound : History.start.Sound where
  generation := by decide
  live := by decide
  past := by decide
  once := by decide
  rights := by decide
  stems r hr := by
    simp only [History.start, List.map_cons, List.map_nil, List.mem_cons, List.not_mem_nil,
      or_false] at hr
    rcases hr with rfl | rfl | rfl
    · rfl
    · rfl
    · rfl
  closed v hv := by cases hv

/-! ## Closed values stay closed -/

theorem History.release_closed (h : History) (i : Nat) : h.closed ⊆ (h.release i).closed := by
  intro v hv
  unfold History.release
  dsimp only
  split
  next => exact hv
  next => exact List.mem_cons_of_mem _ hv

theorem History.close_closed (h : History) (handle : Nat) : h.closed ⊆ (h.close handle).closed := by
  unfold History.close
  cases handleLookup h.table handle 0 with
  | error e => exact List.Subset.refl _
  | ok i => exact h.release_closed i

theorem History.closeSteps_closed (is : List Nat) (h : History) :
    h.closed ⊆ (is.foldl History.closeStep h).closed := by
  induction is generalizing h with
  | nil => exact List.Subset.refl _
  | cons i is ih =>
      refine List.Subset.trans ?_ (ih _)
      unfold History.closeStep
      split
      next => exact List.Subset.refl _
      next => exact h.close_closed _

theorem Call.run_closed (h : History) (call : Call) : h.closed ⊆ (call.run h).closed := by
  cases call with
  | openFile flags file =>
      unfold Call.run
      dsimp only
      cases openSlot h.table flags file with
      | error e => exact List.Subset.refl _
      | ok found => exact List.Subset.refl _
  | duplicate handle mask file =>
      unfold Call.run
      dsimp only
      cases duplicateSlot h.table handle mask with
      | error e => exact List.Subset.refl _
      | ok found =>
          obtain ⟨i, v, j, t⟩ := found
          dsimp only
          cases fillDuplicate t i j file with
          | error e => exact (h.issue t j (h.granted i) (some (i, h.releases i))).release_closed j
          | ok t' => exact List.Subset.refl _
  | lookup handle required => exact List.Subset.refl _
  | close handle => exact h.close_closed handle
  | discard i =>
      unfold Call.run
      dsimp only
      split
      next => exact h.release_closed i
      next => exact List.Subset.refl _
  | closeAll => exact History.closeSteps_closed _ h
  | move handle required offset =>
      unfold Call.run
      dsimp only
      cases handleLookup h.table handle required with
      | error e => exact List.Subset.refl _
      | ok i => exact List.Subset.refl _

theorem History.runs_closed (h : History) (calls : List Call) :
    h.closed ⊆ (h.runs calls).closed := by
  induction calls generalizing h with
  | nil => exact List.Subset.refl _
  | cons call calls ih => exact List.Subset.trans (call.run_closed h) (ih _)

/-! ## Safety -/

/-- A closed value is refused. -/
theorem History.Sound.refused (hs : h.Sound)
    (hfew : ∀ i < nxMaxHandles, h.releases i < 2 ^ 32) {v : Nat} (hv : v ∈ h.closed)
    (required : Nat) : handleLookup h.table v required = .error .NinvalidArg := by
  obtain ⟨i, hi, e, he, rfl⟩ := hs.closed v hv
  have hlt := hfew i hi
  refine handleLookup_stale hi ?_
  rw [hs.generation i hi, Nat.mod_eq_of_lt hlt, Nat.mod_eq_of_lt (lt_trans he hlt)]
  omega

/-- A value is that of one issue only. -/
theorem History.Sound.value_inj (hs : h.Sound)
    (hfew : ∀ i < nxMaxHandles, h.releases i < 2 ^ 32) {q r : Issue} (hq : q ∈ h.issued)
    (hr : r ∈ h.issued) (heq : q.value = r.value) : q = r := by
  obtain ⟨hqi, hqe, -⟩ := hs.past q hq
  obtain ⟨hri, hre, -⟩ := hs.past r hr
  obtain ⟨hepoch, hindex⟩ := makeHandle_inj (lt_of_le_of_lt hqe (hfew _ hqi))
    (lt_of_le_of_lt hre (hfew _ hri)) hqi hri heq
  refine List.inj_on_of_nodup_map hs.once hq hr ?_
  exact Prod.ext hindex hepoch

/-- An accepted value is that of the handle in its slot. -/
theorem History.Sound.accepted (hs : h.Sound)
    (hfew : ∀ i < nxMaxHandles, h.releases i < 2 ^ 32) {v required i : Nat} (hv : v < 2 ^ 64)
    (hok : handleLookup h.table v required = .ok i) :
    ∃ r ∈ h.issued, r.value = v ∧ r.index = i ∧ r.object = (h.table i).object ∧
      r.rights = (h.table i).rights ∧ ∀ q ∈ h.issued, q.value = v → q = r := by
  obtain ⟨hindex, hi, hlive, hgen, -⟩ := handleLookup_eq_ok.mp hok
  obtain ⟨r, hr, hkey, hobject, hrights, -⟩ := hs.live i hi hlive
  obtain ⟨hri, hre⟩ := Prod.mk.inj hkey
  have hvalue : r.value = v := by
    rw [eq_makeHandle hv, Issue.value, hri, hre, hindex, ← hgen, hs.generation i hi,
      Nat.mod_eq_of_lt (hfew i hi)]
  exact ⟨r, hr, hvalue, hri, hobject, hrights,
    fun q hq heq => hs.value_inj hfew hq hr (heq.trans hvalue.symm)⟩

/-- Handle capability safety.  In every run of a table in which no slot is released as often
as its generation counts, closed values stay refused, an accepted value denotes the object
and the slot it was issued for, live handles have different values, and the rights of a
handle are among those of the handle it was duplicated from and those of the first open. -/
theorem handles_safe (calls later : List Call)
    (hfew : ∀ i < nxMaxHandles, (History.start.runs (calls ++ later)).releases i < 2 ^ 32) :
    (∀ v ∈ (History.start.runs calls).closed, ∀ required,
      handleLookup (History.start.runs (calls ++ later)).table v required = .error .NinvalidArg ∧
      handleClose (History.start.runs (calls ++ later)).table v = .error .NinvalidArg) ∧
    (∀ v < 2 ^ 64, ∀ required i,
      handleLookup (History.start.runs (calls ++ later)).table v required = .ok i →
      ∃ r ∈ (History.start.runs (calls ++ later)).issued, r.value = v ∧ r.index = i ∧
        r.object = ((History.start.runs (calls ++ later)).table i).object ∧
        r.rights = ((History.start.runs (calls ++ later)).table i).rights ∧
        ∀ q ∈ (History.start.runs (calls ++ later)).issued, q.value = v → q = r) ∧
    (∀ i < nxMaxHandles, ∀ j < nxMaxHandles,
      ((History.start.runs (calls ++ later)).table i).type ≠ .free →
      ((History.start.runs (calls ++ later)).table j).type ≠ .free →
      makeHandle ((History.start.runs (calls ++ later)).table i).generation i =
        makeHandle ((History.start.runs (calls ++ later)).table j).generation j → i = j) ∧
    (∀ r ∈ (History.start.runs (calls ++ later)).issued,
      r.Stems (History.start.runs (calls ++ later)).issued ∧ r.rights &&& r.granted = r.rights) := by
  have hs := History.start_sound.runs (calls ++ later)
  refine ⟨?_, ?_, ?_, ?_⟩
  · intro v hv required
    have hclosed : v ∈ (History.start.runs (calls ++ later)).closed := by
      have hsplit : History.start.runs (calls ++ later) =
          (History.start.runs calls).runs later := List.foldl_append ..
      rw [hsplit]
      exact History.runs_closed _ later hv
    refine ⟨hs.refused hfew hclosed required, ?_⟩
    rw [handleClose, hs.refused hfew hclosed 0]
  · intro v hv required i hok
    exact hs.accepted hfew hv hok
  · intro i hi j hj _ _ heq
    unfold makeHandle nxMaxHandles at *
    omega
  · intro r hr
    exact ⟨hs.stems r hr, hs.rights r hr⟩

/-- A file is opened, its handle duplicated without the right to write and closed; another
file is opened in its slot. -/
def smallCalls : List Call :=
  [.openFile 3 ⟨some 4, 0, 3, some 0⟩, .duplicate 3 nxRightRead (.ok ⟨some 4, 0, 3, some 1⟩),
    .close 3, .openFile 1 ⟨some 7, 0, 1, some 0⟩]

theorem handles_safe_small :
    3 ∈ (History.start.runs smallCalls).closed ∧
    handleLookup (History.start.runs smallCalls).table 3 0 = .error .NinvalidArg := by
  have hsafe := handles_safe smallCalls [] (by decide)
  have hmem : 3 ∈ (History.start.runs smallCalls).closed := by decide
  exact ⟨hmem, (hsafe.1 3 hmem 0).1⟩

end Syscall
end Nyxis
