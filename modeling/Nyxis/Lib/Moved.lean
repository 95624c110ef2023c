import Mathlib.Logic.Relation

/-!
# Moving a child to another parent

A relation of parents and children, and what becomes of it when one child is given another parent.
Nothing is cut off from the root, and no circle is closed, if the new parent was not below the child.

Main results:

- Theorem {lit}`Moved.not_below`: the new parent is not below the child.
- Theorem {lit}`Moved.reaches`: what the root reaches, it still reaches.
-/

namespace Nyxis

open Relation (ReflTransGen)

variable {α : Type*} {E E' : α → α → Prop} {root t q : α}

/-- One child that the root reaches has been given another parent, and every other one has kept its
own. -/
structure Moved (E E' : α → α → Prop) (root t q : α) : Prop where
  reached : ReflTransGen E root t
  kept : ∀ a b, ReflTransGen E root a → E a b → b ≠ t → E' a b
  new : E' q t
  old : ∀ a b, ReflTransGen E root a → E' a b → E a b ∨ b = t

/-- What is below the child now was below it before. -/
theorem Moved.below (h : Moved E E' root t q) {i : α} (hi : ReflTransGen E' t i) :
    ReflTransGen E t i := by
  induction hi with
  | refl => exact ReflTransGen.refl
  | tail _ hstep ih =>
      rcases h.old _ _ (h.reached.trans ih) hstep with hedge | rfl
      · exact ih.tail hedge
      · exact ReflTransGen.refl

theorem Moved.not_below (h : Moved E E' root t q) (hno : ¬ReflTransGen E t q) :
    ¬ReflTransGen E' t q :=
  fun hbelow => hno (h.below hbelow)

/-- What the root reaches is reached as before, or through the child. -/
theorem Moved.reaches_or_below (h : Moved E E' root t q) {i : α} (hi : ReflTransGen E root i) :
    ReflTransGen E' root i ∨ ReflTransGen E t i := by
  classical
  induction hi with
  | refl => exact Or.inl ReflTransGen.refl
  | @tail a b ha hstep ih =>
      by_cases hb : b = t
      · rw [hb]
        exact Or.inr ReflTransGen.refl
      · rcases ih with hreach | hbelow
        · exact Or.inl (hreach.tail (h.kept a b ha hstep hb))
        · exact Or.inr (hbelow.tail hstep)

/-- What the root reaches, it still reaches. -/
theorem Moved.reaches (h : Moved E E' root t q) (hq : ReflTransGen E root q)
    (hno : ¬ReflTransGen E t q) {i : α} (hi : ReflTransGen E root i) : ReflTransGen E' root i := by
  classical
  have hchild : ReflTransGen E' root t :=
    ((h.reaches_or_below hq).resolve_right hno).tail h.new
  rcases h.reaches_or_below hi with hreach | hbelow
  · exact hreach
  clear hi
  induction hbelow with
  | refl => exact hchild
  | @tail a b ha hstep ih =>
      by_cases hb : b = t
      · rw [hb]
        exact hchild
      · exact ih.tail (h.kept a b (h.reached.trans ha) hstep hb)

end Nyxis
