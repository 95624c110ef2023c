import Nyxis.Lib.Effect

/-!
# Status codes

The error codes of {lit}`include/types.h` that the modelled functions return; the
host library {lit}`nyfs_host.h` has the same ones and {lit}`NnameTooLong`.
Success is not a code here: a call that succeeds returns a value, so
{lit}`NSTATUS_IS_ERR` is the test for an error outcome.

Calls with loops over linked structures may also fail to return.  Their loops
carry a fuel that covers every structure without a cycle, and running out of it is
the outcome {lit}`hang`.
-/

namespace Nyxis

/-- The error values of {lit}`Nstatus`. -/
inductive Nstatus
  | NnotFound
  | NinvalidArg
  | NoutOfMemory
  | Npermission
  | Nbusy
  | NalreadyExists
  | Noverflow
  | Nio
  | Nunsupported
  | Ncorrupted
  | Ninterrupted
  | NfileNotFound
  | NpathTooLong
  | NreadOnly
  | NdiskFull
  | NbadFilesystem
  | NfileCorrupted
  | NtooManyFileSystem
  | NprocessFailed
  | NinvalidFormat
  | NinvalidPointer
  | NnotInitialized
  | NalreadyInitialized
  | NnameTooLong
deriving DecidableEq, Repr

/-- How a call ends other than by returning success: with an error status, in a
panic, or in a loop that does not end. -/
inductive Stop
  | status (e : Nstatus)
  | panic
  | hang
deriving DecidableEq, Repr

/-- Return an error status. -/
def failWith {σ α : Type} (e : Nstatus) : Eff Stop σ α :=
  Eff.fail (.status e)

/-- Run a computation and hand an error status to the caller. -/
def attemptStatus {σ α : Type} (c : Eff Stop σ α) : Eff Stop σ (Except Nstatus α) :=
  fun s =>
    match c s with
    | (.ok x, s') => (.ok (.ok x), s')
    | (.error (.status e), s') => (.ok (.error e), s')
    | (.error stop, s') => (.error stop, s')

/-- The rule for a caller that tests the returned status. -/
theorem post_attemptStatus_bind {σ α β : Type} {c : Eff Stop σ α} {s : σ}
    {f : Except Nstatus α → Eff Stop σ β} {R : Except Stop α → σ → Prop}
    {Q : Except Stop β → σ → Prop} (hc : Eff.Post c s R)
    (hok : ∀ x s', R (.ok x) s' → Eff.Post (f (.ok x)) s' Q)
    (herr : ∀ e s', R (.error (.status e)) s' → Eff.Post (f (.error e)) s' Q)
    (hpanic : ∀ s', R (.error .panic) s' → Q (.error .panic) s')
    (hhang : ∀ s', R (.error .hang) s' → Q (.error .hang) s') :
    Eff.Post (attemptStatus c >>= f) s Q := by
  unfold Eff.Post at hc
  cases hrun : c s with
  | mk r s' =>
      rw [hrun] at hc
      rcases r with (e | _ | _) | x
      · exact Eff.post_bind_ok (by simp [attemptStatus, hrun]) (herr e s' hc)
      · exact Eff.post_bind_error (by simp [attemptStatus, hrun]) (hpanic s' hc)
      · exact Eff.post_bind_error (by simp [attemptStatus, hrun]) (hhang s' hc)
      · exact Eff.post_bind_ok (by simp [attemptStatus, hrun]) (hok x s' hc)

theorem reads_failWith {σ α : Type} (e : Nstatus) : Eff.Reads (failWith e : Eff Stop σ α) :=
  Eff.reads_fail _

theorem reads_attemptStatus {σ α : Type} {c : Eff Stop σ α} (h : Eff.Reads c) :
    Eff.Reads (attemptStatus c) := by
  intro s
  unfold attemptStatus
  rw [h.run_eq s]
  cases (c s).1 with
  | ok a => rfl
  | error stop =>
      cases stop with
      | status e => rfl
      | panic => rfl
      | hang => rfl

end Nyxis
