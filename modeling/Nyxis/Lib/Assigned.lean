import Mathlib.Data.Set.Basic

/-!
# Things that are in one place each

A relation that gives every member of a set exactly one place, and nothing else a place.  A thing may
be moved from its place to another one.

Main results:

- Theorem {lit}`Assigned.congr`: the same relation under another name.
- Theorem {lit}`Assigned.move`: a thing is moved.
-/

namespace Nyxis

variable {α β : Type} {pool : Set α} {R R' : α → β → Prop}

/-- Every member of the set has exactly one place. -/
structure Assigned (pool : Set α) (R : α → β → Prop) : Prop where
  unique : ∀ a b b', R a b → R a b' → b = b'
  mem : ∀ a b, R a b → a ∈ pool
  total : ∀ a, a ∈ pool → ∃ b, R a b

namespace Assigned

theorem congr (h : Assigned pool R) (hsame : ∀ a b, R' a b ↔ R a b) : Assigned pool R' := by
  have heq : R' = R := funext fun a => funext fun b => propext (hsame a b)
  rw [heq]
  exact h

/-- One thing is moved from its place to another one. -/
theorem move (h : Assigned pool R) {a : α} {source : β} (target : β) (ha : R a source)
    (hmove : ∀ x b, R' x b ↔ (x ≠ a ∧ R x b) ∨ (x = a ∧ b = target)) : Assigned pool R' where
  unique := by
    intro x b b' hb hb'
    rcases (hmove x b).mp hb with ⟨hne, hR⟩ | ⟨rfl, rfl⟩
    · rcases (hmove x b').mp hb' with ⟨-, hR'⟩ | ⟨rfl, -⟩
      · exact h.unique x b b' hR hR'
      · exact absurd rfl hne
    · rcases (hmove x b').mp hb' with ⟨hne, -⟩ | ⟨-, rfl⟩
      · exact absurd rfl hne
      · rfl
  mem := by
    intro x b hb
    rcases (hmove x b).mp hb with ⟨-, hR⟩ | ⟨rfl, -⟩
    · exact h.mem x b hR
    · exact h.mem x source ha
  total := by
    intro x hx
    by_cases hxa : x = a
    · exact ⟨target, (hmove x target).mpr (Or.inr ⟨hxa, rfl⟩)⟩
    · obtain ⟨b, hb⟩ := h.total x hx
      exact ⟨b, (hmove x b).mpr (Or.inl ⟨hxa, hb⟩)⟩

/-- Things in different places are different. -/
theorem ne_of_ne (h : Assigned pool R) {a x : α} {b c : β} (ha : R a b) (hx : R x c) (hne : b ≠ c) :
    a ≠ x := by
  rintro rfl
  exact hne (h.unique a b c ha hx)

end Assigned

end Nyxis
