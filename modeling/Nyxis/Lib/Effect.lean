import Mathlib.Logic.Basic
import Mathlib.Tactic.Common

/-!
# Fallible computations that keep their effects

A C function that returns a status code does not undo its stores when it
returns an error.  The computations of this module have the same shape: each
run ends in a value or in an error, and the state it has reached is kept in
both cases.

Main results:

- Definition {lit}`Eff.Post`: the postcondition of one run, over the outcome and
  the final state.
- Theorems {lit}`Eff.post_bind`, {lit}`Eff.post_attempt` and
  {lit}`Eff.post_mono`: the rules by which the postcondition of a compound
  computation is assembled from those of its parts.
- Theorem {lit}`Eff.Reads.bind_eq_ok`: a compound computation that only reads returns a value
  when its parts do, all of them in the same state.
- Theorem {lit}`Eff.Moves.bind`: a relation that every part keeps is kept by the whole.
-/

namespace Nyxis

/-- A computation over a state that returns a value or stops with an error, and
keeps the state it has reached either way. -/
def Eff (ε σ α : Type) : Type :=
  σ → Except ε α × σ

namespace Eff

variable {ε σ α β : Type}

/-- Return a value and leave the state alone. -/
def ret (a : α) : Eff ε σ α :=
  fun s => (.ok a, s)

/-- Run one computation and, unless it stopped, continue with its value. -/
def andThen (m : Eff ε σ α) (f : α → Eff ε σ β) : Eff ε σ β :=
  fun s =>
    match m s with
    | (.ok a, s') => f a s'
    | (.error e, s') => (.error e, s')

instance : Monad (Eff ε σ) where
  pure := ret
  bind := andThen

/-- Stop with an error. -/
def fail (e : ε) : Eff ε σ α :=
  fun s => (.error e, s)

/-- Read a component of the state. -/
def gets (f : σ → α) : Eff ε σ α :=
  fun s => (.ok (f s), s)

/-- Update the state. -/
def modify (f : σ → σ) : Eff ε σ Unit :=
  fun s => (.ok (), f s)

/-- Run a computation and hand its outcome to the caller, as a C caller that
tests the returned status does. -/
def attempt (m : Eff ε σ α) : Eff ε σ (Except ε α) :=
  fun s => (.ok (m s).1, (m s).2)

/-- Run a computation for its effect and drop its outcome, as a C call under a
{lit}`(void)` cast does. -/
def ignore (m : Eff ε σ α) : Eff ε σ Unit :=
  fun s => (.ok (), (m s).2)

/-! ## Running compound computations -/

@[simp]
theorem pure_run (a : α) (s : σ) : (pure a : Eff ε σ α) s = (.ok a, s) :=
  rfl

@[simp]
theorem fail_run (e : ε) (s : σ) : (fail e : Eff ε σ α) s = (.error e, s) :=
  rfl

@[simp]
theorem gets_run (f : σ → α) (s : σ) : (gets f : Eff ε σ α) s = (.ok (f s), s) :=
  rfl

@[simp]
theorem modify_run (f : σ → σ) (s : σ) : (modify f : Eff ε σ Unit) s = (.ok (), f s) :=
  rfl

@[simp]
theorem attempt_run (m : Eff ε σ α) (s : σ) : attempt m s = (.ok (m s).1, (m s).2) :=
  rfl

@[simp]
theorem ignore_run (m : Eff ε σ α) (s : σ) : ignore m s = (.ok (), (m s).2) :=
  rfl

/-- A bind after a successful run continues from the state that run reached. -/
theorem bind_ok {m : Eff ε σ α} {f : α → Eff ε σ β} {s s' : σ} {a : α}
    (h : m s = (.ok a, s')) : (m >>= f) s = f a s' := by
  change andThen m f s = f a s'
  simp only [andThen, h]

/-- A bind after a failed run stops in the state that run reached. -/
theorem bind_error {m : Eff ε σ α} {f : α → Eff ε σ β} {s s' : σ} {e : ε}
    (h : m s = (.error e, s')) : (m >>= f) s = (.error e, s') := by
  change andThen m f s = (.error e, s')
  simp only [andThen, h]

/-- A bind that succeeds is made of two successful runs. -/
theorem bind_inv {m : Eff ε σ α} {f : α → Eff ε σ β} {s s' : σ} {b : β}
    (h : (m >>= f) s = (.ok b, s')) : ∃ a s₁, m s = (.ok a, s₁) ∧ f a s₁ = (.ok b, s') := by
  cases hrun : m s with
  | mk r s₁ =>
      cases r with
      | ok a =>
          rw [bind_ok hrun] at h
          exact ⟨a, s₁, rfl, h⟩
      | error e =>
          rw [bind_error hrun] at h
          cases h

theorem bind_assoc_eq {γ : Type} (m : Eff ε σ α) (f : α → Eff ε σ β) (g : β → Eff ε σ γ) :
    (m >>= f) >>= g = m >>= fun a => f a >>= g := by
  funext s
  cases hm : m s with
  | mk r s' =>
      cases r with
      | ok a =>
          rw [bind_ok hm]
          cases hf : f a s' with
          | mk r' s'' =>
              cases r' with
              | ok b => rw [bind_ok ((bind_ok hm).trans hf), bind_ok hf]
              | error e => rw [bind_error ((bind_ok hm).trans hf), bind_error hf]
      | error e => rw [bind_error hm, bind_error (bind_error hm)]

@[simp]
theorem pure_bind_run (a : α) (f : α → Eff ε σ β) (s : σ) :
    ((pure a : Eff ε σ α) >>= f) s = f a s :=
  rfl

@[simp]
theorem fail_bind_run (e : ε) (f : α → Eff ε σ β) (s : σ) :
    ((fail e : Eff ε σ α) >>= f) s = (.error e, s) :=
  rfl

@[simp]
theorem gets_bind_run (g : σ → α) (f : α → Eff ε σ β) (s : σ) :
    ((gets g : Eff ε σ α) >>= f) s = f (g s) s :=
  rfl

@[simp]
theorem modify_bind_run (g : σ → σ) (f : Unit → Eff ε σ β) (s : σ) :
    ((modify g : Eff ε σ Unit) >>= f) s = f () (g s) :=
  rfl

@[simp]
theorem attempt_bind_run (m : Eff ε σ α) (f : Except ε α → Eff ε σ β) (s : σ) :
    (attempt m >>= f) s = f (m s).1 (m s).2 :=
  rfl

@[simp]
theorem ignore_bind_run (m : Eff ε σ α) (f : Unit → Eff ε σ β) (s : σ) :
    (ignore m >>= f) s = f () (m s).2 :=
  rfl

/-! ## Postconditions -/

/-- The outcome and the final state of a run satisfy the given relation. -/
def Post (m : Eff ε σ α) (s : σ) (Q : Except ε α → σ → Prop) : Prop :=
  Q (m s).1 (m s).2

variable {m : Eff ε σ α} {f : α → Eff ε σ β} {s : σ}

/-- A weaker postcondition follows from a stronger one. -/
theorem post_mono {Q R : Except ε α → σ → Prop} (h : Post m s R)
    (hQ : ∀ r s', R r s' → Q r s') : Post m s Q :=
  hQ _ _ h

/-- Two postconditions of the same run hold together. -/
theorem post_and {Q R : Except ε α → σ → Prop} (hQ : Post m s Q) (hR : Post m s R) :
    Post m s (fun r s' => Q r s' ∧ R r s') :=
  ⟨hQ, hR⟩

/-- The postcondition of a run whose outcome is known. -/
theorem post_of_eq {Q : Except ε α → σ → Prop} {r : Except ε α} {s' : σ}
    (h : m s = (r, s')) (hQ : Q r s') : Post m s Q := by
  unfold Post
  rw [h]
  exact hQ

/-- Computations that run alike satisfy the same postconditions. -/
theorem post_congr {m' : Eff ε σ α} {Q : Except ε α → σ → Prop} (h : m s = m' s)
    (hQ : Post m' s Q) : Post m s Q := by
  unfold Post at *
  rw [h]
  exact hQ

/-- A sequential composition satisfies what its second part establishes from
the first part's postcondition; errors of the first part are its own. -/
theorem post_bind {R : Except ε α → σ → Prop} {Q : Except ε β → σ → Prop}
    (hm : Post m s R)
    (herr : ∀ e s', R (.error e) s' → Q (.error e) s')
    (hok : ∀ a s', R (.ok a) s' → Post (f a) s' Q) :
    Post (m >>= f) s Q := by
  unfold Post at hm ⊢
  cases hrun : m s with
  | mk r s' =>
      rw [hrun] at hm
      cases r with
      | error e =>
          rw [bind_error hrun]
          exact herr e s' hm
      | ok a =>
          rw [bind_ok hrun]
          exact hok a s' hm

/-- A sequential composition whose first part is known to succeed. -/
theorem post_bind_ok {Q : Except ε β → σ → Prop} {a : α} {s' : σ}
    (h : m s = (.ok a, s')) (hQ : Post (f a) s' Q) : Post (m >>= f) s Q := by
  unfold Post
  rw [bind_ok h]
  exact hQ

/-- A sequential composition whose first part is known to fail. -/
theorem post_bind_error {Q : Except ε β → σ → Prop} {e : ε} {s' : σ}
    (h : m s = (.error e, s')) (hQ : Q (.error e) s') : Post (m >>= f) s Q :=
  post_of_eq (bind_error h) hQ

/-- Reading the state continues with what was read. -/
theorem post_gets_bind {g : σ → α} {Q : Except ε β → σ → Prop} (h : Post (f (g s)) s Q) :
    Post (gets g >>= f) s Q :=
  h

/-- Attempting a computation turns its outcome into a value. -/
theorem post_attempt {R : Except ε α → σ → Prop}
    {Q : Except ε (Except ε α) → σ → Prop} (hm : Post m s R)
    (hQ : ∀ r s', R r s' → Q (.ok r) s') : Post (attempt m) s Q :=
  hQ _ _ hm

/-- Ignoring a computation keeps its effect only. -/
theorem post_ignore {R : Except ε α → σ → Prop} {Q : Except ε Unit → σ → Prop}
    (hm : Post m s R) (hQ : ∀ r s', R r s' → Q (.ok ()) s') :
    Post (ignore m) s Q :=
  hQ _ _ hm

/-- The computation after an attempt starts from the attempt's outcome. -/
theorem post_attempt_bind {R : Except ε α → σ → Prop} {g : Except ε α → Eff ε σ β}
    {Q : Except ε β → σ → Prop} (hm : Post m s R)
    (hQ : ∀ r s', R r s' → Post (g r) s' Q) : Post (attempt m >>= g) s Q :=
  hQ _ _ hm

/-- The computation after an ignored one starts from the state it reached. -/
theorem post_ignore_bind {R : Except ε α → σ → Prop} {g : Unit → Eff ε σ β}
    {Q : Except ε β → σ → Prop} (hm : Post m s R)
    (hQ : ∀ r s', R r s' → Post (g ()) s' Q) : Post (ignore m >>= g) s Q :=
  hQ _ _ hm

/-! ## Computations that only read -/

/-- A computation that leaves every state as it is. -/
def Reads (m : Eff ε σ α) : Prop :=
  ∀ s, (m s).2 = s

theorem reads_pure (a : α) : Reads (pure a : Eff ε σ α) :=
  fun _ => rfl

theorem reads_fail (e : ε) : Reads (fail e : Eff ε σ α) :=
  fun _ => rfl

theorem reads_gets (g : σ → α) : Reads (gets g : Eff ε σ α) :=
  fun _ => rfl

theorem reads_ite {c : Prop} [Decidable c] {m' : Eff ε σ α} (h : Reads m) (h' : Reads m') :
    Reads (if c then m else m') := by
  split
  next => exact h
  next => exact h'

theorem Reads.run_eq (h : Reads m) (s : σ) : m s = ((m s).1, s) :=
  Prod.ext rfl (h s)

theorem Reads.bind (hm : Reads m) (hf : ∀ a, Reads (f a)) : Reads (m >>= f) := by
  intro s
  have hrun := hm.run_eq s
  cases hr : (m s).1 with
  | ok a =>
      rw [hr] at hrun
      rw [bind_ok hrun]
      exact hf a s
  | error e =>
      rw [hr] at hrun
      rw [bind_error hrun]

/-- Two compound computations that begin with the same reading agree when they go on alike. -/
theorem Reads.bind_congr (hm : Reads m) {g : α → Eff ε σ β}
    (h : ∀ a, (m s).1 = .ok a → f a s = g a s) : (m >>= f) s = (m >>= g) s := by
  have hrun := hm.run_eq s
  cases hr : (m s).1 with
  | ok a =>
      rw [hr] at hrun
      rw [bind_ok hrun, bind_ok hrun]
      exact h a hr
  | error e =>
      rw [hr] at hrun
      rw [bind_error hrun, bind_error hrun]

/-- A compound computation returns a value when both parts do, in the same state. -/
theorem Reads.bind_eq_ok (hm : Reads m) {b : β} :
    ((m >>= f) s).1 = .ok b ↔ ∃ a, (m s).1 = .ok a ∧ (f a s).1 = .ok b := by
  have hrun := hm.run_eq s
  cases hr : (m s).1 with
  | ok a =>
      rw [hr] at hrun
      rw [bind_ok hrun]
      constructor
      · intro hb
        exact ⟨a, rfl, hb⟩
      · rintro ⟨a', heq, hb⟩
        cases heq
        exact hb
  | error e =>
      rw [hr] at hrun
      rw [bind_error hrun]
      constructor
      · intro hb
        cases hb
      · rintro ⟨a', heq, -⟩
        cases heq

/-! ## Computations that keep a relation -/

/-- Every run relates the state before it to the state after it. -/
def Moves (R : σ → σ → Prop) (m : Eff ε σ α) : Prop :=
  ∀ s, R s (m s).2

variable {R : σ → σ → Prop}

theorem Reads.moves (hm : Reads m) (hrefl : ∀ s, R s s) : Moves R m := by
  intro s
  rw [hm s]
  exact hrefl s

theorem Moves.bind (hm : Moves R m) (htrans : ∀ a b c, R a b → R b c → R a c)
    (hf : ∀ a, Moves R (f a)) : Moves R (m >>= f) := by
  intro s
  have hfirst := hm s
  cases hrun : m s with
  | mk r s' =>
      rw [hrun] at hfirst
      cases r with
      | error e =>
          rw [bind_error hrun]
          exact hfirst
      | ok a =>
          rw [bind_ok hrun]
          exact htrans _ _ _ hfirst (hf a s')

theorem moves_ite {c : Prop} [Decidable c] {m' : Eff ε σ α} (h : Moves R m) (h' : Moves R m') :
    Moves R (if c then m else m') := by
  split
  next => exact h
  next => exact h'

/-- Every run that returns a value relates the state before it to the state after it. -/
def Gives (T : σ → σ → Prop) (m : Eff ε σ α) : Prop :=
  ∀ s a, (m s).1 = .ok a → T s (m s).2

variable {T : σ → σ → Prop}

theorem gives_fail (e : ε) : Gives T (fail e : Eff ε σ α) :=
  fun _ _ h => nomatch h

theorem gives_ite {c : Prop} [Decidable c] {m' : Eff ε σ α} (h : Gives T m) (h' : Gives T m') :
    Gives T (if c then m else m') := by
  split
  next => exact h
  next => exact h'

/-- What the second part gives is given by the whole, when the first part keeps enough. -/
theorem Moves.gives_bind (hm : Moves R m) (htrans : ∀ a b c, R a b → T b c → T a c)
    (hf : ∀ a, Gives T (f a)) : Gives T (m >>= f) := by
  intro s b hb
  have hfirst := hm s
  cases hrun : m s with
  | mk r s' =>
      rw [hrun] at hfirst
      cases r with
      | error e =>
          rw [bind_error hrun] at hb
          cases hb
      | ok a =>
          rw [bind_ok hrun] at hb ⊢
          exact htrans _ _ _ hfirst (hf a s' b hb)

/-- What the first part gives is given by the whole, when the second part keeps it. -/
theorem Gives.bind_moves (hm : Gives T m) (htrans : ∀ a b c, T a b → R b c → T a c)
    (hf : ∀ a, Moves R (f a)) : Gives T (m >>= f) := by
  intro s b hb
  cases hrun : m s with
  | mk r s' =>
      cases r with
      | error e =>
          rw [bind_error hrun] at hb
          cases hb
      | ok a =>
          have hfirst := hm s a (by rw [hrun])
          rw [hrun] at hfirst
          rw [bind_ok hrun]
          exact htrans _ _ _ hfirst (hf a s')

end Eff
end Nyxis
