import Nyxis.Syscall.Files

/-!
# The handle values that calls return

A system call returns its result in a signed register, and a negative result is an error.  A
handle value carries the generation of its slot in the upper half.  The releases of each slot
are counted along the runs of {lit}`sys_open`, {lit}`sys_duplicate_handle` and
{lit}`sys_close`, whatever the file systems answer, and the sign of a returned handle is read
off the count.

Main results:

- Theorem {lit}`Counted.step`: each call keeps the counts.
- Theorem {lit}`handle_results`: a returned handle is accepted, and when it is not negative.
- Theorem {lit}`handle_negative`: a run that returns a negative handle.
-/

namespace Nyxis
namespace Syscall

open Vfs
open Nyfs (NyfsState nyfsOps MemoryDisk)

variable {σ : Type}

/-! ## Counting the releases -/

/-- The number of releases of each slot of the tables, for each process. -/
abbrev Releases := Nat → Nat → Nat

/-- One more release of a slot. -/
def Releases.bump (n : Releases) (p i : Nat) : Releases :=
  Function.update n p (Function.update (n p) i (n p i + 1))

/-- The slot that a close releases. -/
def closedSlot (s : Files σ) (p handle : Nat) : Option Nat :=
  (s.tables p).bind (fun t => (handleLookup t handle 0).toOption)

/-- The slot that a duplication takes first, and releases when the file cannot be opened. -/
def takenSlot (s : Files σ) (p handle mask : Nat) : Option Nat :=
  (s.tables p).bind (fun t => (duplicateSlot t handle mask).toOption.map (fun found => found.2.2.1))

/-- The releases after a close. -/
def countClose (s : Files σ) (n : Releases) (p handle : Nat) : Releases :=
  match closedSlot s p handle with
  | some i => n.bump p i
  | none => n

/-- The releases after a duplication: one more when it fails after it has taken a slot. -/
def countDuplicate (drivers : Nat → VfsOps σ) (s : Files σ) (n : Releases) (p handle mask : Nat) :
    Releases :=
  match (sysDuplicateHandle drivers p handle mask s).1 with
  | .ok _ => n
  | .error _ =>
      match takenSlot s p handle mask with
      | some j => n.bump p j
      | none => n

/-- The releases after a new process has started: it has none. -/
def countCreate (s : Files σ) (n : Releases) : Releases :=
  match (create s).1 with
  | .ok p => Function.update n p (fun _ => 0)
  | .error _ => n

/-- The releases after a call. -/
def FileCall.count (drivers : Nat → VfsOps σ) (c : FileCall) (s : Files σ) (n : Releases) :
    Releases :=
  match c with
  | .close p handle => countClose s n p handle
  | .duplicate p handle mask => countDuplicate drivers s n p handle mask
  | .create => countCreate s n
  | .openFile _ _ _ _ => n
  | .exit _ => n

/-- The generation of a slot is the number of its releases, in 32 bits. -/
def Counted (s : Files σ) (n : Releases) : Prop :=
  ∀ p t, s.tables p = some t → ∀ i, (t i).generation = n p i % 2 ^ 32

variable {drivers : Nat → VfsOps σ} {s s' : Files σ} {n : Releases} {p : Nat} {t t' : HandleTable}

theorem Counted.congr (h : Counted s n) (hsame : s'.tables = s.tables) : Counted s' n := by
  intro p t ht
  rw [hsame] at ht
  exact h p t ht

/-- A table whose generations have not changed. -/
theorem Counted.setTable (h : Counted s n) (ht : s.tables p = some t)
    (hgen : ∀ i, (t' i).generation = (t i).generation)
    (hset : s'.tables = Function.update s.tables p (some t')) : Counted s' n := by
  intro q u hu i
  rw [hset] at hu
  by_cases hq : q = p
  · subst hq
    rw [Function.update_self] at hu
    cases hu
    rw [hgen i]
    exact h q t ht i
  · rw [Function.update_of_ne hq] at hu
    exact h q u hu i

/-- A slot is released. -/
theorem Counted.release (h : Counted s n) (ht : s.tables p = some t) {j : Nat}
    (hgen : ∀ i, (t' i).generation =
      if i = j then ((t i).generation + 1) % 2 ^ 32 else (t i).generation)
    (hset : s'.tables = Function.update s.tables p (some t')) : Counted s' (n.bump p j) := by
  intro q u hu i
  rw [hset] at hu
  unfold Releases.bump
  by_cases hq : q = p
  · subst hq
    rw [Function.update_self] at hu ⊢
    cases hu
    have hold := h q t ht i
    rw [hgen i]
    by_cases hi : i = j
    · subst hi
      rw [if_pos rfl, Function.update_self, hold, Nat.mod_add_mod]
    · rw [if_neg hi, Function.update_of_ne hi, hold]
  · rw [Function.update_of_ne hq] at hu ⊢
    exact h q u hu i

/-! ## What the calls do to the tables -/

/-- The tables stay what they are. -/
def SameTables (s s' : Files σ) : Prop :=
  s'.tables = s.tables

theorem onVfs_sameTables {α : Type} (m : VfsM σ α) : Eff.Moves SameTables (onVfs m) :=
  fun _ => rfl

/-- An error that has come back comes back at any type. -/
theorem Returned.error {α β : Type} {e : Stop} (h : Returned (.error e : Except Stop α)) :
    Returned (.error e : Except Stop β) := by
  cases e with
  | status e => trivial
  | panic => exact h
  | hang => exact h

/-- A status is handed to the caller, so that a test of it only ends with a value, in a panic
or in a loop. -/
theorem attemptStatus_post {τ α : Type} {R : τ → τ → Prop} {m : Eff Stop τ α}
    (h : Eff.Moves R m) (s : τ) :
    Eff.Post (attemptStatus m) s (fun r s' => R s s' ∧ (Returned r → ∃ x, r = .ok x)) := by
  have hmoves := h s
  unfold Eff.Post attemptStatus
  cases hrun : m s with
  | mk r s' =>
      rw [hrun] at hmoves
      rcases r with (e | _ | _) | x
      · exact ⟨hmoves, fun _ => ⟨_, rfl⟩⟩
      · exact ⟨hmoves, nofun⟩
      · exact ⟨hmoves, nofun⟩
      · exact ⟨hmoves, fun _ => ⟨_, rfl⟩⟩

theorem moves_attemptStatus {τ α : Type} {R : τ → τ → Prop} {m : Eff Stop τ α}
    (h : Eff.Moves R m) : Eff.Moves R (attemptStatus m) :=
  fun s => (attemptStatus_post h s).1

theorem sameTables_trans (a b c : Files σ) (hab : SameTables a b) (hbc : SameTables b c) :
    SameTables a c :=
  hbc.trans hab

/-- A close whose status is dropped leaves the tables alone, and returns if it comes back. -/
theorem closeFile_tables (file : Handle) (s : Files σ) :
    Eff.Post (closeFile drivers file) s (fun r s' =>
      s'.tables = s.tables ∧ (Returned r → r = .ok ())) := by
  refine Eff.post_bind (attemptStatus_post (onVfs_sameTables _) s) ?_ ?_
  · rintro e s' ⟨hsame, hreturn⟩
    refine ⟨hsame, fun hreturned => ?_⟩
    obtain ⟨x, hx⟩ := hreturn hreturned.error
    cases hx
  · rintro x s' ⟨hsame, -⟩
    exact Eff.post_of_eq rfl ⟨hsame, fun _ => rfl⟩

theorem closeFile_sameTables (file : Handle) : Eff.Moves SameTables (closeFile drivers file) :=
  fun s => (closeFile_tables file s).1

theorem probeWrite_sameTables (flags : Nat) (file : Handle) :
    Eff.Moves SameTables (probeWrite drivers flags file) := by
  refine Eff.moves_ite (fun _ => rfl) ?_
  refine (moves_attemptStatus (onVfs_sameTables _)).bind sameTables_trans (fun r => ?_)
  cases r with
  | error e => exact (closeFile_sameTables _).bind sameTables_trans (fun _ _ => rfl)
  | ok found => exact fun _ => rfl

/-- Opening the source of a duplication again leaves the tables alone. -/
theorem reopenSource_post (source : HandleSlot) (s : Files σ) :
    Eff.Post (reopenSource drivers source) s (fun r s' =>
      s'.tables = s.tables ∧ (Returned r → ∃ x, r = .ok x)) := by
  unfold reopenSource
  split
  next => exact Eff.post_of_eq rfl ⟨rfl, fun _ => ⟨_, rfl⟩⟩
  next => exact attemptStatus_post (onVfs_sameTables _) s

/-- An allocation takes the first free slot. -/
theorem handleAlloc_first {type : HandleType} {rights v i : Nat}
    (h : handleAlloc t type rights = .ok (v, i, t')) :
    firstFree (fun i => (t i).type ≠ .free) nxMaxHandles = some i := by
  unfold handleAlloc at h
  split at h
  next => cases h
  next j hfree =>
    cases h
    exact hfree

/-- What a call that issues a handle does to the table of its process: it fills the first free
slot, keeps the generations and returns the value of the slot. -/
structure Issues (t t' : HandleTable) (i v : Nat) : Prop where
  first : firstFree (fun i => (t i).type ≠ .free) nxMaxHandles = some i
  value : v = makeHandle (t i).generation i
  live : (t' i).type ≠ .free
  generation : ∀ j, (t' j).generation = (t j).generation

/-- Filling the rest of the slot keeps it issued. -/
theorem handleAlloc_issues {type : HandleType} {rights v i : Nat} (htype : type ≠ .free)
    (h : handleAlloc t type rights = .ok (v, i, t')) (slot : HandleSlot)
    (hkept : slot.type = (t' i).type ∧ slot.generation = (t' i).generation) :
    Issues t (Function.update t' i slot) i v := by
  obtain ⟨hi, -, hv, rfl⟩ := handleAlloc_eq_ok h
  rw [Function.update_self] at hkept
  refine ⟨handleAlloc_first h, hv, ?_, fun j => ?_⟩
  · rw [Function.update_self, hkept.1]
    exact htype
  · by_cases hj : j = i
    · rw [hj, Function.update_self, hkept.2]
    · rw [Function.update_of_ne hj, Function.update_of_ne hj]

/-- A call that issues a handle in a table of a process. -/
def IssuesIn (s s' : Files σ) (p v : Nat) : Prop :=
  ∃ t t' i, s.tables p = some t ∧ s'.tables = Function.update s.tables p (some t') ∧
    Issues t t' i v

/-- {lit}`sys_open` issues a handle, or leaves the tables alone. -/
theorem sysOpen_tables (drivers : Nat → VfsOps σ) (s : Files σ) (p : Nat) (buffer : List UInt8)
    (path : Except Nstatus (List UInt8)) (flags : Nat) :
    Eff.Post (sysOpen drivers p buffer path flags) s (fun r s' =>
      match r with
      | .ok v => IssuesIn s s' p v
      | .error _ => s'.tables = s.tables) := by
  unfold sysOpen
  refine curHandles_post (fun _ => rfl) (fun t ht => ?_)
  split
  next => exact Eff.post_of_eq rfl rfl
  next =>
    cases path with
    | error e => exact Eff.post_of_eq rfl rfl
    | ok path =>
        have hopen : Eff.Post (onVfs (vfsOpen drivers buffer path flags)) s
            (fun _ s' => s'.tables = s.tables) := onVfs_sameTables _ s
        refine Eff.post_bind hopen (fun e s₁ h₁ => h₁) (fun file s₁ h₁ => ?_)
        have hprobe : Eff.Post (probeWrite drivers flags file) s₁
            (fun _ s' => s'.tables = s₁.tables) := probeWrite_sameTables _ _ s₁
        refine Eff.post_bind hprobe (fun e s₂ h₂ => h₂.trans h₁) (fun file' s₂ h₂ => ?_)
        have hsame : s₂.tables = s.tables := h₂.trans h₁
        unfold openSlot
        cases halloc : handleAlloc t .file (openRights flags) with
        | error e =>
            have hclose : Eff.Post (closeFile drivers file') s₂
                (fun _ s' => s'.tables = s₂.tables) := closeFile_sameTables _ s₂
            refine Eff.post_bind hclose (fun e s₃ h₃ => h₃.trans hsame) (fun _ s₃ h₃ => ?_)
            exact Eff.post_of_eq rfl (h₃.trans hsame)
        | ok made =>
            obtain ⟨v, i, t'⟩ := made
            refine Eff.post_bind_ok rfl (Eff.post_of_eq rfl ⟨t, _, i, ht, ?_,
              handleAlloc_issues (by decide) halloc { t' i with file := file' } ⟨rfl, rfl⟩⟩)
            change Function.update s₂.tables p _ = _
            rw [hsame]

/-- The allocation inside a duplication. -/
theorem duplicateSlot_alloc {handle mask i v j : Nat}
    (h : duplicateSlot t handle mask = .ok (i, v, j, t')) :
    handleAlloc t (t i).type ((t i).rights &&& mask) = .ok (v, j, t') := by
  unfold duplicateSlot at h
  split at h
  next => cases h
  next =>
    cases hfound : handleLookup t handle nxRightDup with
    | error e =>
        rw [hfound] at h
        cases h
    | ok k =>
        rw [hfound] at h
        dsimp only at h
        cases halloc : handleAlloc t (t k).type ((t k).rights &&& mask) with
        | error e =>
            rw [halloc] at h
            cases h
        | ok made =>
            rw [halloc] at h
            cases h
            exact halloc

/-- {lit}`sys_duplicate_handle` issues a handle, leaves the tables alone, or releases the slot
that it has taken. -/
theorem sysDuplicateHandle_tables (drivers : Nat → VfsOps σ) (s : Files σ) (p handle mask : Nat) :
    Eff.Post (sysDuplicateHandle drivers p handle mask) s (fun r s' => Returned r →
      match r with
      | .ok v => IssuesIn s s' p v
      | .error _ =>
          match takenSlot s p handle mask with
          | none => s'.tables = s.tables
          | some j => ∃ t t', s.tables p = some t ∧
              s'.tables = Function.update s.tables p (some t') ∧ ∀ i, (t' i).generation =
                if i = j then ((t i).generation + 1) % 2 ^ 32 else (t i).generation) := by
  unfold sysDuplicateHandle
  refine curHandles_post (fun hnone _ => ?_) (fun t ht => ?_)
  · rw [takenSlot, hnone]
    rfl
  · cases hdup : duplicateSlot t handle mask with
    | error e =>
        refine Eff.post_of_eq rfl (fun _ => ?_)
        rw [takenSlot, ht, Option.bind_some, hdup]
        rfl
    | ok found =>
        obtain ⟨i, v, j, t'⟩ := found
        have htaken : takenSlot s p handle mask = some j := by
          rw [takenSlot, ht, Option.bind_some, hdup]
          rfl
        have halloc := duplicateSlot_alloc hdup
        obtain ⟨-, hlive, -, -, ht'⟩ := duplicateSlot_eq_ok hdup
        dsimp only
        rw [htaken]
        refine Eff.post_bind_ok rfl ?_
        refine Eff.post_bind (reopenSource_post (t' i) _) ?_ ?_
        · rintro e s₁ ⟨-, hfailed⟩ hreturned
          obtain ⟨x, hx⟩ := hfailed hreturned.error
          cases hx
        · rintro file s₁ ⟨hsame, -⟩
          cases hfill : fillDuplicate t' i j file with
          | ok filled =>
              obtain ⟨slot, rfl, htype, hgen, -⟩ := fillDuplicate_eq_ok hfill
              refine Eff.post_bind_ok rfl (Eff.post_of_eq rfl (fun _ => ⟨t, _, j, ht, ?_,
                handleAlloc_issues hlive halloc slot ⟨htype, hgen⟩⟩))
              change Function.update s₁.tables p _ = _
              rw [hsame]
              exact Function.update_idem _ _ _
          | error e =>
              refine Eff.post_bind_ok rfl (Eff.post_of_eq rfl (fun _ =>
                ⟨t, handleDiscard t' j, ht, ?_, fun k => ?_⟩))
              · change Function.update s₁.tables p _ = _
                rw [hsame]
                exact Function.update_idem _ _ _
              · rw [ht', handleDiscard]
                by_cases hk : k = j
                · subst hk
                  rw [Function.update_self, Function.update_self, if_pos rfl]
                · rw [Function.update_of_ne hk, Function.update_of_ne hk, if_neg hk]

/-- {lit}`sys_close` releases the slot of its handle, or leaves the tables alone. -/
theorem sysClose_tables (drivers : Nat → VfsOps σ) (s : Files σ) (p handle : Nat) :
    Eff.Post (sysClose drivers p handle) s (fun r s' => Returned r →
      match closedSlot s p handle with
      | none => s'.tables = s.tables
      | some i => ∃ t, s.tables p = some t ∧
          s'.tables = Function.update s.tables p (some (handleDiscard t i))) := by
  unfold sysClose
  refine curHandles_post (fun hnone _ => ?_) (fun t ht => ?_)
  · rw [closedSlot, hnone]
    rfl
  · cases hlookup : handleLookup t handle 0 with
    | error e =>
        refine Eff.post_of_eq rfl (fun _ => ?_)
        rw [closedSlot, ht, Option.bind_some, hlookup]
        rfl
    | ok i =>
        have hclosed : closedSlot s p handle = some i := by
          rw [closedSlot, ht, Option.bind_some, hlookup]
          rfl
        rw [hclosed]
        dsimp only
        by_cases hfile : (t i).type = .file
        · rw [if_pos hfile]
          refine Eff.post_bind (closeFile_tables _ s) ?_ ?_
          · rintro e s₁ ⟨-, hback⟩ hreturned
            exact absurd (hback hreturned) nofun
          · rintro _ s₁ ⟨hsame, -⟩
            refine Eff.post_of_eq rfl (fun _ => ⟨t, ht, ?_⟩)
            change Function.update s₁.tables p _ = _
            rw [hsame]
        · rw [if_neg hfile]
          exact Eff.post_of_eq rfl (fun _ => ⟨t, ht, rfl⟩)

/-- Closing handles of a process only changes its own table, and comes back with success. -/
theorem closeHandles_tables {is : List Nat} (ht : s.tables p = some t) :
    Eff.Post (closeHandles drivers p is) s (fun r s' => Returned r →
      r = .ok () ∧ ∃ t', s'.tables = Function.update s.tables p (some t')) := by
  induction is generalizing s t with
  | nil =>
      refine Eff.post_of_eq rfl (fun _ => ⟨rfl, t, ?_⟩)
      rw [← ht, Function.update_eq_self]
  | cons i is ih =>
      refine curHandles_post (fun hnone => ?_) (fun u hu => ?_)
      · rw [hnone] at ht
        cases ht
      · -- the rest of the loop, from a state in which only this table has changed
        have hrest : ∀ s₁ u₁, s₁.tables = Function.update s.tables p (some u₁) →
            Eff.Post (closeHandles drivers p is) s₁ (fun r s' => Returned r →
              r = .ok () ∧ ∃ t', s'.tables = Function.update s.tables p (some t')) := by
          intro s₁ u₁ h₁
          refine Eff.post_mono (ih (by rw [h₁, Function.update_self])) ?_
          intro r s' hclose hreturned
          obtain ⟨hok, t', ht'⟩ := hclose hreturned
          refine ⟨hok, t', ?_⟩
          rw [ht', h₁, Function.update_idem]
        have hkeep : s.tables = Function.update s.tables p (some u) := by
          rw [← hu, Function.update_eq_self]
        split
        next =>
          have hpanic : ∀ {s' : Files σ} {stop : Stop},
              ¬ Returned (.error stop : Except Stop Unit) →
              (Returned (.error stop : Except Stop Unit) → (.error stop : Except Stop Unit) = .ok () ∧
                ∃ t', s'.tables = Function.update s.tables p (some t')) :=
            fun hnot hreturned => absurd hreturned hnot
          have hclosed := sysClose_tables drivers s p (makeHandle (u i).generation i)
          have hset : ∀ {r : Except Stop Unit} {s₁ : Files σ}, Returned r → (Returned r →
              match closedSlot s p (makeHandle (u i).generation i) with
              | none => s₁.tables = s.tables
              | some i => ∃ t, s.tables p = some t ∧
                  s₁.tables = Function.update s.tables p (some (handleDiscard t i))) →
              ∃ u₁, s₁.tables = Function.update s.tables p (some u₁) := by
            intro r s₁ hreturned h
            have h' := h hreturned
            split at h'
            next => exact ⟨u, h'.trans hkeep⟩
            next =>
              obtain ⟨t', -, htables⟩ := h'
              exact ⟨_, htables⟩
          refine post_attemptStatus_bind hclosed ?_ ?_ ?_ ?_
          · intro x s₁ h₁
            obtain ⟨u₁, hu₁⟩ := hset (r := .ok x) trivial h₁
            exact hrest s₁ u₁ hu₁
          · intro e s₁ h₁
            obtain ⟨u₁, hu₁⟩ := hset (r := .error (.status e)) trivial h₁
            exact hrest s₁ u₁ hu₁
          · intro s₁ _
            exact hpanic id
          · intro s₁ _
            exact hpanic id
        next => exact hrest s u hkeep

/-- The end of a process takes its table away, or leaves the tables alone. -/
theorem terminate_tables (s : Files σ) (p : Nat) :
    Eff.Post (terminate drivers p) s (fun r s' => Returned r →
      s'.tables = s.tables ∨ s'.tables = Function.update s.tables p none) := by
  unfold terminate
  split
  next => exact Eff.post_of_eq rfl (fun _ => Or.inl rfl)
  next =>
    refine Eff.post_gets_bind ?_
    cases ht : s.tables p with
    | none => exact Eff.post_of_eq rfl (fun _ => Or.inl rfl)
    | some t =>
        refine Eff.post_bind (closeHandles_tables ht) (fun e s₁ h₁ hreturned => ?_)
          (fun x s₁ h₁ => ?_)
        · obtain ⟨hcon, -⟩ := h₁ hreturned
          cases hcon
        · obtain ⟨-, t', ht'⟩ := h₁ trivial
          refine Eff.post_of_eq rfl (fun _ => Or.inr ?_)
          change Function.update s₁.tables p none = _
          rw [ht', Function.update_idem]

/-- A new process gets a new table. -/
theorem create_tables (s : Files σ) :
    Eff.Post create s (fun r s' =>
      match r with
      | .ok p => s'.tables = Function.update s.tables p (some handlesInit)
      | .error _ => s'.tables = s.tables) := by
  unfold create
  refine Eff.post_gets_bind ?_
  split
  next => exact Eff.post_of_eq rfl rfl
  next => exact Eff.post_of_eq rfl rfl

/-! ## Runs -/

/-- A call issues a handle without a release. -/
theorem Counted.issues {v : Nat} (h : Counted s n) (hissues : IssuesIn s s' p v) :
    Counted s' n := by
  obtain ⟨t, t', i, ht, hset, hnew⟩ := hissues
  exact h.setTable ht hnew.generation hset

/-- Each call keeps the counts. -/
theorem Counted.step (h : Counted s n) (c : FileCall) (hreturned : Returned (c.exec drivers s).1) :
    Counted (c.exec drivers s).2 (c.count drivers s n) := by
  cases c with
  | openFile p buffer path flags =>
      have hopen := sysOpen_tables drivers s p buffer path flags
      change Counted (((sysOpen drivers p buffer path flags) >>= fun _ => pure ()) s).2 n
      unfold Eff.Post at hopen
      cases hrun : sysOpen drivers p buffer path flags s with
      | mk r s' =>
          rw [hrun] at hopen
          cases r with
          | ok v =>
              rw [Eff.bind_ok hrun]
              exact h.issues hopen
          | error e =>
              rw [Eff.bind_error hrun]
              exact h.congr hopen
  | duplicate p handle mask =>
      have hdup := sysDuplicateHandle_tables drivers s p handle mask
      change Counted (((sysDuplicateHandle drivers p handle mask) >>= fun _ => pure ()) s).2
        (countDuplicate drivers s n p handle mask)
      change Returned (((sysDuplicateHandle drivers p handle mask) >>= fun _ => pure ()) s).1
        at hreturned
      unfold Eff.Post at hdup
      unfold countDuplicate
      cases hrun : sysDuplicateHandle drivers p handle mask s with
      | mk r s' =>
          rw [hrun] at hdup
          cases r with
          | ok v =>
              rw [Eff.bind_ok hrun]
              exact h.issues (hdup trivial)
          | error e =>
              rw [Eff.bind_error hrun] at hreturned ⊢
              have hset := hdup hreturned.error
              dsimp only at hset ⊢
              cases htaken : takenSlot s p handle mask with
              | none =>
                  rw [htaken] at hset
                  exact h.congr hset
              | some j =>
                  rw [htaken] at hset
                  obtain ⟨t, t', ht, htables, hgen⟩ := hset
                  exact h.release ht hgen htables
  | close p handle =>
      have hset := sysClose_tables drivers s p handle hreturned
      change Counted (sysClose drivers p handle s).2 (countClose s n p handle)
      unfold countClose
      cases hclosed : closedSlot s p handle with
      | none =>
          rw [hclosed] at hset
          exact h.congr hset
      | some i =>
          rw [hclosed] at hset
          obtain ⟨t, ht, htables⟩ := hset
          refine h.release ht (fun k => ?_) htables
          rw [handleDiscard]
          by_cases hk : k = i
          · subst hk
            rw [Function.update_self, if_pos rfl]
          · rw [Function.update_of_ne hk, if_neg hk]
  | create =>
      have hcreate := create_tables s
      change Counted ((create >>= fun _ => pure ()) s).2 (countCreate s n)
      unfold Eff.Post at hcreate
      unfold countCreate
      cases hrun : create s with
      | mk r s' =>
          rw [hrun] at hcreate
          cases r with
          | ok p =>
              rw [Eff.bind_ok hrun]
              intro q t ht i
              change s'.tables q = some t at ht
              rw [hcreate] at ht
              dsimp only
              by_cases hq : q = p
              · subst hq
                rw [Function.update_self] at ht ⊢
                cases ht
                exact (handlesInit_slot i).2
              · rw [Function.update_of_ne hq] at ht ⊢
                exact h q t ht i
          | error e =>
              rw [Eff.bind_error hrun]
              exact h.congr hcreate
  | exit p =>
      change Counted (terminate drivers p s).2 n
      rcases terminate_tables s p hreturned with hset | hset
      · exact h.congr hset
      · intro q t ht i
        rw [hset] at ht
        by_cases hq : q = p
        · rw [hq, Function.update_self] at ht
          cases ht
        · rw [Function.update_of_ne hq] at ht
          exact h q t ht i

/-- The tables agree up to the files behind the handles. -/
def SameHandles (s s' : Files σ) : Prop :=
  ∀ p, (s'.tables p).map (fun t i => { t i with file := Handle.cleared }) =
    (s.tables p).map (fun t i => { t i with file := Handle.cleared })

/-- The runs of calls, with the releases of each slot.  The first tables are new.  Between two
calls the file systems may change in any way and the positions of the open files may move. -/
inductive CountedRun (drivers : Nat → VfsOps σ) : Files σ → Releases → Prop
  | start {s : Files σ} (h : ∀ p t, s.tables p = some t → t = handlesInit) :
      CountedRun drivers s (fun _ _ => 0)
  | call {s : Files σ} {n : Releases} (h : CountedRun drivers s n) (c : FileCall)
      (hreturned : Returned (c.exec drivers s).1) :
      CountedRun drivers (c.exec drivers s).2 (c.count drivers s n)
  | other {s s' : Files σ} {n : Releases} (h : CountedRun drivers s n)
      (hsame : SameHandles s s') : CountedRun drivers s' n

theorem Counted.sameHandles (h : Counted s n) (hsame : SameHandles s s') : Counted s' n := by
  intro p t' ht' i
  have hp := hsame p
  rw [ht', Option.map_some] at hp
  obtain ⟨t, ht, heq⟩ := Option.map_eq_some_iff.mp hp.symm
  have hslot := congrArg HandleSlot.generation (congrFun heq i)
  have hgen : (t i).generation = (t' i).generation := hslot
  rw [← hgen]
  exact h p t ht i

/-- The counts are right after every run. -/
theorem CountedRun.counted (h : CountedRun drivers s n) : Counted s n := by
  induction h with
  | start hnew =>
      intro p t ht i
      rw [hnew p t ht]
      exact (handlesInit_slot i).2
  | call _ c hreturned ih => exact ih.step c hreturned
  | other _ hsame ih => exact ih.sameHandles hsame

/-! ## The results -/

/-- A result of a system call as the caller sees it: a signed 64-bit number. -/
def signedResult (v : Nat) : Int :=
  (BitVec.ofNat 64 v).toInt

/-- A following lookup accepts a value. -/
def LookedUp (s : Files σ) (p v : Nat) : Prop :=
  ∃ t i, s.tables p = some t ∧ handleLookup t v 0 = .ok i

/-- A result that is not mistaken for an error and that a following lookup accepts. -/
def ResultOk (s : Files σ) (p v : Nat) : Prop :=
  0 ≤ signedResult v ∧ LookedUp s p v

theorem signedResult_nonneg_iff {e i : Nat} (hi : i < nxMaxHandles) :
    0 ≤ signedResult (makeHandle e i) ↔ e % 2 ^ 32 < 2 ^ 31 := by
  have hlt : makeHandle e i < 2 ^ 64 := by
    unfold makeHandle
    omega
  unfold signedResult
  rw [BitVec.toInt_eq_toNat_cond, BitVec.toNat_ofNat, Nat.mod_eq_of_lt hlt]
  unfold makeHandle nxMaxHandles at *
  split
  next => omega
  next => omega

/-- A returned handle, after a run with known releases. -/
theorem Counted.result {v : Nat} (h : Counted s n) (hissues : IssuesIn s s' p v) :
    LookedUp s' p v ∧ ∃ t i, s.tables p = some t ∧
      firstFree (fun i => (t i).type ≠ .free) nxMaxHandles = some i ∧
      (ResultOk s' p v ↔ n p i % 2 ^ 32 < 2 ^ 31) := by
  obtain ⟨t, t', i, ht, hset, hfirst, rfl, hlive, hgen⟩ := hissues
  have hi : i < nxMaxHandles := List.mem_range.mp (List.mem_of_find?_eq_some hfirst)
  have hcount := h p t ht i
  have hlook : LookedUp s' p (makeHandle (t i).generation i) := by
    refine ⟨t', i, by rw [hset, Function.update_self], ?_⟩
    rw [← hgen i]
    refine handleLookup_live hi hlive ?_
    rw [hgen i, hcount]
    exact Nat.mod_lt _ (by decide)
  refine ⟨hlook, t, i, ht, hfirst, ?_⟩
  have hsign := signedResult_nonneg_iff (e := (t i).generation) hi
  rw [hcount, Nat.mod_mod] at hsign
  rw [hcount] at hlook ⊢
  exact ⟨fun hok => hsign.mp hok.1, fun hlt => ⟨hsign.mpr hlt, hlook⟩⟩

/-- After every run, a handle that {lit}`sys_open` or {lit}`sys_duplicate_handle` returns is
accepted by a lookup, and it is a result that is not mistaken for an error exactly when the
number of releases of the first free slot of the table, in 32 bits, is below 2 ^ 31. -/
theorem handle_results (drivers : Nat → VfsOps σ) {s : Files σ} {n : Releases}
    (h : CountedRun drivers s n) (p v : Nat) (s' : Files σ)
    (hcall : (∃ buffer path flags, sysOpen drivers p buffer path flags s = (.ok v, s')) ∨
      ∃ handle mask, sysDuplicateHandle drivers p handle mask s = (.ok v, s')) :
    LookedUp s' p v ∧ ∃ t i, s.tables p = some t ∧
      firstFree (fun i => (t i).type ≠ .free) nxMaxHandles = some i ∧
      (ResultOk s' p v ↔ n p i % 2 ^ 32 < 2 ^ 31) := by
  rcases hcall with ⟨buffer, path, flags, hrun⟩ | ⟨handle, mask, hrun⟩
  · have hopen := sysOpen_tables drivers s p buffer path flags
    unfold Eff.Post at hopen
    rw [hrun] at hopen
    exact h.counted.result hopen
  · have hdup := sysDuplicateHandle_tables drivers s p handle mask
    unfold Eff.Post at hdup
    rw [hrun] at hdup
    exact h.counted.result (hdup trivial)

/-! ## A negative handle -/

/-- The first process has a console handle in its first slot, with a known generation, and may
duplicate the one in its second slot. -/
def ConsoleAt (s : Files σ) (e : Nat) : Prop :=
  ∃ t, s.tables 0 = some t ∧ (t 0).type = .console ∧ (t 0).generation = e ∧
    (t 1).type = .console ∧ (t 1).generation = 0 ∧ (t 1).rights &&& nxRightDup = nxRightDup

/-- The first slot has been closed. -/
def ClosedAt (s : Files σ) (e : Nat) : Prop :=
  ∃ t, s.tables 0 = some t ∧ (t 0).type = .free ∧ (t 0).generation = e ∧
    (t 1).type = .console ∧ (t 1).generation = 0 ∧ (t 1).rights &&& nxRightDup = nxRightDup

theorem curHandles_run (ht : s.tables p = some t) : curHandles p s = (.ok t, s) := by
  rw [curHandles, Eff.gets_bind_run, ht]
  rfl

/-- Closing the handle in the first slot. -/
theorem ConsoleAt.close (drivers : Nat → VfsOps σ) {e : Nat} (h : ConsoleAt s e)
    (he : e < 2 ^ 32) :
    ∃ s', sysClose drivers 0 (makeHandle e 0) s = (.ok (), s') ∧
      ClosedAt s' ((e + 1) % 2 ^ 32) := by
  obtain ⟨t, ht, htype, rfl, htype₁, hgen₁, hrights₁⟩ := h
  have hlook : handleLookup t (makeHandle (t 0).generation 0) 0 = .ok 0 :=
    handleLookup_live (by decide) (by rw [htype]; decide) he
  refine ⟨{ s with tables := Function.update s.tables 0 (some (handleDiscard t 0)) }, ?_,
    handleDiscard t 0, rfl, rfl, rfl, htype₁, hgen₁, hrights₁⟩
  unfold sysClose
  rw [Eff.bind_ok (curHandles_run ht), hlook]
  dsimp only
  rw [if_neg (by rw [htype]; decide)]
  rfl

/-- Duplicating the handle in the second slot into the first one. -/
theorem ClosedAt.duplicate (drivers : Nat → VfsOps σ) {e : Nat} (h : ClosedAt s e) :
    ∃ s', sysDuplicateHandle drivers 0 1 nxRightDup s = (.ok (makeHandle e 0), s') ∧
      ConsoleAt s' e := by
  obtain ⟨t, ht, htype, rfl, htype₁, hgen₁, hrights₁⟩ := h
  have hlook : handleLookup t 1 nxRightDup = .ok 1 :=
    handleLookup_eq_ok.mpr ⟨rfl, by decide, by rw [htype₁]; decide, hgen₁, hrights₁⟩
  have hfirst : firstFree (fun i => (t i).type ≠ .free) nxMaxHandles = some 0 := by
    have hrange : List.range nxMaxHandles = 0 :: (List.range 31).map Nat.succ :=
      List.range_succ_eq_map
    unfold firstFree
    rw [hrange, List.find?_cons_of_pos]
    simp [htype]
  obtain ⟨fresh, hfresh⟩ : ∃ x : HandleSlot, x = { HandleSlot.zero with
    generation := (t 0).generation, type := .console
    rights := (t 1).rights &&& nxRightDup &&& nxRightAll } := ⟨_, rfl⟩
  have hdup : duplicateSlot t 1 nxRightDup =
      .ok (1, makeHandle (t 0).generation 0, 0, Function.update t 0 fresh) := by
    unfold duplicateSlot handleAlloc
    rw [if_neg (by decide), hlook]
    dsimp only
    rw [hfirst, htype₁, hfresh]
  have hsource : Function.update t 0 fresh 1 = t 1 := Function.update_of_ne (by decide) _ _
  refine ⟨{ s with tables := Function.update (Function.update s.tables 0
    (some (Function.update t 0 fresh))) 0 (some (Function.update (Function.update t 0 fresh) 0
      { fresh with consoleFd := (t 1).consoleFd })) }, ?_, _, rfl, ?_, ?_, ?_⟩
  · unfold sysDuplicateHandle
    rw [Eff.bind_ok (curHandles_run ht), hdup]
    dsimp only
    rw [Eff.bind_ok (a := ()) (by rfl), reopenSource, hsource, if_pos htype₁,
      Eff.bind_ok (a := .ok Handle.cleared) (by rfl), fillDuplicate, hsource, if_pos htype₁,
      Function.update_self]
    rfl
  · rw [Function.update_self, hfresh]
  · rw [Function.update_self, hfresh]
  · rw [Function.update_idem, Function.update_of_ne (by decide)]
    exact ⟨htype₁, hgen₁, hrights₁⟩

/-- Closing the handle in the first slot, as a step of a run. -/
theorem CountedRun.closeConsole {e : Nat} (hrun : CountedRun drivers s n) (hat : ConsoleAt s e)
    (he : e < 2 ^ 32) :
    ∃ (s' : Files σ) (n' : Releases), CountedRun drivers s' n' ∧
      ClosedAt s' ((e + 1) % 2 ^ 32) := by
  obtain ⟨s', hclose, hclosed⟩ := hat.close drivers he
  have hexec : (FileCall.close 0 (makeHandle e 0)).exec drivers s = (.ok (), s') := hclose
  have hstep := hrun.call (.close 0 (makeHandle e 0)) (by rw [hexec]; trivial)
  rw [hexec] at hstep
  exact ⟨s', _, hstep, hclosed⟩

/-- Duplicating into the first slot, as a step of a run. -/
theorem CountedRun.duplicateConsole {e : Nat} (hrun : CountedRun drivers s n)
    (hclosed : ClosedAt s e) :
    ∃ (s' : Files σ) (n' : Releases), CountedRun drivers s' n' ∧ ConsoleAt s' e := by
  obtain ⟨s', hdup, hat⟩ := hclosed.duplicate drivers
  have hexec : (FileCall.duplicate 0 1 nxRightDup).exec drivers s = (.ok (), s') :=
    Eff.bind_ok hdup
  have hstep := hrun.call (.duplicate 0 1 nxRightDup) (by rw [hexec]; trivial)
  rw [hexec] at hstep
  exact ⟨s', _, hstep, hat⟩

/-- After any number of rounds of closing and duplicating, the generation of the first slot is
their number. -/
theorem CountedRun.rounds (hrun : CountedRun drivers s n) (hat : ConsoleAt s 0) (k : Nat) :
    ∃ (s' : Files σ) (n' : Releases), CountedRun drivers s' n' ∧ ConsoleAt s' (k % 2 ^ 32) := by
  induction k with
  | zero => exact ⟨s, n, hrun, hat⟩
  | succ k ih =>
      obtain ⟨s₁, n₁, hrun₁, hat₁⟩ := ih
      obtain ⟨s₂, n₂, hrun₂, hclosed⟩ := hrun₁.closeConsole hat₁ (Nat.mod_lt _ (by decide))
      rw [Nat.mod_add_mod] at hclosed
      exact hrun₂.duplicateConsole hclosed

/-- The run starts at boot. -/
theorem bootFiles_counted : CountedRun (fun _ => nyfsOps) bootFiles (fun _ _ => 0) := by
  refine CountedRun.start (fun p t ht => ?_)
  change Function.update (fun _ => none) 0 (some handlesInit) p = some t at ht
  by_cases hp : p = 0
  · rw [hp, Function.update_self] at ht
    exact (Option.some.inj ht).symm
  · rw [Function.update_of_ne hp] at ht
    cases ht

/-- The first process duplicates its standard output. -/
theorem handle_results_boot :
    ResultOk (sysDuplicateHandle (fun _ => nyfsOps) 0 1 nxRightDup bootFiles).2 0 3 := by
  have hrun : sysDuplicateHandle (fun _ => nyfsOps) 0 1 nxRightDup bootFiles =
      (.ok 3, (sysDuplicateHandle (fun _ => nyfsOps) 0 1 nxRightDup bootFiles).2) :=
    Prod.ext rfl rfl
  obtain ⟨-, t, i, -, -, hiff⟩ := handle_results (fun _ => nyfsOps) bootFiles_counted 0 3 _
    (Or.inr ⟨1, nxRightDup, hrun⟩)
  exact hiff.mpr (by decide)

/-- Once the first slot has been released 2 ^ 31 times, a duplication into it succeeds with a
negative result. -/
theorem handle_negative :
    ∃ (s s' : Files (NyfsState MemoryDisk)) (n : Releases) (v : Nat),
      CountedRun (fun _ => nyfsOps) s n ∧
        sysDuplicateHandle (fun _ => nyfsOps) 0 1 nxRightDup s = (.ok v, s') ∧
        signedResult v < 0 ∧ ¬ ResultOk s' 0 v := by
  have hboot : ConsoleAt bootFiles 0 := ⟨handlesInit, rfl, by decide⟩
  obtain ⟨s₁, n₁, hrun₁, hat⟩ := bootFiles_counted.rounds hboot (2 ^ 31 - 1)
  obtain ⟨s, n, hrun, hclosed⟩ := hrun₁.closeConsole hat (Nat.mod_lt _ (by decide))
  obtain ⟨s', hdup, -⟩ := hclosed.duplicate (fun _ => nyfsOps)
  have hnegative : signedResult (makeHandle (((2 ^ 31 - 1) % 2 ^ 32 + 1) % 2 ^ 32) 0) < 0 := by
    decide
  exact ⟨s, s', n, _, hrun, hdup, hnegative, fun hok => absurd hok.1 (not_le.mpr hnegative)⟩

end Syscall
end Nyxis
