import Mathlib.Data.List.Nodup
import Mathlib.Data.List.TakeWhile
import Mathlib.Data.List.Sublists
import Mathlib.Tactic.Common

/-!
# Going round a list

A search that starts behind an element of a list and goes on at the front when the list ends.
The list may lose elements and get new ones at its end between two searches.

Main results:

- Definition {lit}`rotation`: the order in which such a search meets the other elements.
- Theorem {lit}`rotation_step`: the order behind an element that the search has met.
- Definition {lit}`Behind`: the search does not meet one element before another.
- Theorems {lit}`Behind.sublist`, {lit}`Behind.snoc` and {lit}`Behind.step`: what keeps this so.
-/

namespace Nyxis

variable {A : Type} [DecidableEq A] {l l' l₁ l₂ : List A} {c x p q : A}

/-- The elements of a list behind one of them, and then those in front of it. -/
def rotation (l : List A) (c : A) : List A :=
  (l.dropWhile (· ≠ c)).tail ++ l.takeWhile (· ≠ c)

theorem rotation_append (hc : c ∉ l₁) : rotation (l₁ ++ c :: l₂) c = l₂ ++ l₁ := by
  have hall : ∀ x ∈ l₁, decide (x ≠ c) = true := by
    intro x hx
    refine decide_eq_true fun heq => ?_
    rw [heq] at hx
    exact hc hx
  unfold rotation
  rw [List.dropWhile_append_of_pos hall, List.takeWhile_append_of_pos hall,
    List.dropWhile_cons_of_neg (by simp), List.takeWhile_cons_of_neg (by simp),
    List.append_nil, List.tail_cons]

/-- An element of a list without repetitions splits it in one way. -/
theorem exists_rotation (hl : l.Nodup) (hc : c ∈ l) :
    ∃ l₁ l₂, l = l₁ ++ c :: l₂ ∧ c ∉ l₁ ∧ c ∉ l₂ ∧ rotation l c = l₂ ++ l₁ := by
  obtain ⟨l₁, l₂, rfl⟩ := List.append_of_mem hc
  obtain ⟨-, htail, hdisjoint⟩ := List.nodup_append.mp hl
  have hc₁ : c ∉ l₁ := fun hcon => hdisjoint c hcon c (List.mem_cons_self ..) rfl
  exact ⟨l₁, l₂, rfl, hc₁, (List.nodup_cons.mp htail).1, rotation_append hc₁⟩

theorem mem_rotation (hl : l.Nodup) (hc : c ∈ l) : x ∈ rotation l c ↔ x ∈ l ∧ x ≠ c := by
  obtain ⟨l₁, l₂, rfl, hc₁, hc₂, hrot⟩ := exists_rotation hl hc
  rw [hrot]
  simp only [List.mem_append, List.mem_cons]
  constructor
  · rintro (hx | hx)
    · exact ⟨Or.inr (Or.inr hx), fun heq => hc₂ (heq ▸ hx)⟩
    · exact ⟨Or.inl hx, fun heq => hc₁ (heq ▸ hx)⟩
  · rintro ⟨hx | hx | hx, hne⟩
    · exact Or.inr hx
    · exact absurd hx hne
    · exact Or.inl hx

theorem nodup_rotation (hl : l.Nodup) (hc : c ∈ l) : (rotation l c).Nodup := by
  obtain ⟨l₁, l₂, rfl, -, -, hrot⟩ := exists_rotation hl hc
  rw [hrot, List.nodup_append_comm]
  exact hl.sublist (List.Sublist.append_left (List.sublist_cons_self _ _) _)

/-- The search goes on behind an element that it has met, up to where it started and on to that
element again. -/
theorem rotation_step {a b : List A} (hl : l.Nodup) (hc : c ∈ l)
    (h : rotation l c = a ++ x :: b) : rotation l x = b ++ c :: a := by
  obtain ⟨l₁, l₂, rfl, hc₁, hc₂, hrot⟩ := exists_rotation hl hc
  have hnodup := nodup_rotation hl hc
  rw [h] at hnodup
  have hxc : x ≠ c := ((mem_rotation hl hc).mp (by rw [h]; simp)).2
  have hxa : x ∉ a :=
    fun hcon => (List.nodup_append.mp hnodup).2.2 x hcon x (List.mem_cons_self ..) rfl
  rw [hrot] at h
  rcases List.append_eq_append_iff.mp h with ⟨d, rfl, hfront⟩ | ⟨d, hback, hrest⟩
  · -- the element stands in front of the start
    have hxd : x ∉ d := fun hcon => hxa (List.mem_append_right _ hcon)
    rw [hfront, List.append_assoc, List.cons_append, rotation_append hxd, List.append_assoc,
      List.cons_append]
  · cases d with
    | nil =>
        rw [List.append_nil] at hback
        rw [List.nil_append] at hrest
        subst hback
        rw [← hrest, List.cons_append, ← List.nil_append (x :: _), rotation_append (by simp),
          List.append_nil]
    | cons y d =>
        -- the element stands behind the start
        rw [List.cons_append, List.cons.injEq] at hrest
        obtain ⟨rfl, rfl⟩ := hrest
        have hx₁ : x ∉ l₁ ++ c :: a := by
          have hx := hl
          rw [hback, ← List.cons_append, ← List.append_assoc] at hx
          intro hcon
          exact (List.nodup_append.mp hx).2.2 x hcon x (List.mem_cons_self ..) rfl
        rw [hback, ← List.cons_append, ← List.append_assoc, rotation_append hx₁,
          List.append_assoc]

/-- The order is the same after elements have gone. -/
theorem rotation_sublist (hsub : l'.Sublist l) (hl : l.Nodup) (hc : c ∈ l') :
    (rotation l' c).Sublist (rotation l c) := by
  obtain ⟨l₁, l₂, rfl, hc₁, hc₂, hrot⟩ := exists_rotation hl (hsub.subset hc)
  obtain ⟨m₁, m₂, rfl, hfront, hback⟩ := List.sublist_append_iff.mp hsub
  have hcm : c ∉ m₁ := fun hcon => hc₁ (hfront.subset hcon)
  cases hback with
  | cons _ hback =>
      rcases List.mem_append.mp hc with hcon | hcon
      · exact absurd hcon hcm
      · exact absurd (hback.subset hcon) hc₂
  | cons_cons _ hback =>
      rw [rotation_append hcm, hrot]
      exact hback.append hfront

/-- A new last element does not change the order of the others. -/
theorem rotation_snoc (hl : l.Nodup) (hc : c ∈ l) (hx : x ∉ l) :
    (rotation (l ++ [x]) c).filter (· ≠ x) = rotation l c := by
  obtain ⟨l₁, l₂, rfl, hc₁, -, hrot⟩ := exists_rotation hl hc
  have hkeep : ∀ m : List A, (∀ y ∈ m, y ∈ l₁ ++ c :: l₂) → m.filter (· ≠ x) = m := by
    intro m hm
    refine List.filter_eq_self.mpr fun y hy => decide_eq_true fun heq => ?_
    exact hx (heq ▸ hm y hy)
  rw [List.append_assoc, List.cons_append, rotation_append hc₁, hrot, List.filter_append,
    List.filter_append, hkeep l₁ (fun y hy => List.mem_append_left _ hy),
    hkeep l₂ (fun y hy => List.mem_append_right _ (List.mem_cons_of_mem _ hy)),
    List.filter_cons_of_neg (by simp), List.filter_nil, List.append_nil]

/-! ## Which of two elements comes first -/

/-- Going round from an element, the search does not meet a second one before a third. -/
def Behind (l : List A) (c p q : A) : Prop :=
  ¬ [p, q].Sublist (rotation l c)

namespace Behind

/-- The search never meets the element that it starts from. -/
theorem self (hl : l.Nodup) (hc : c ∈ l) (q : A) : Behind l c c q := by
  intro hcon
  have hmem : c ∈ rotation l c := hcon.subset (List.mem_cons_self ..)
  exact ((mem_rotation hl hc).mp hmem).2 rfl

theorem sublist (h : Behind l c p q) (hsub : l'.Sublist l) (hl : l.Nodup) (hc : c ∈ l') :
    Behind l' c p q :=
  fun hcon => h (hcon.trans (rotation_sublist hsub hl hc))

theorem snoc (h : Behind l c p q) (hl : l.Nodup) (hc : c ∈ l) (hx : x ∉ l) (hp : p ≠ x)
    (hq : q ≠ x) : Behind (l ++ [x]) c p q := by
  intro hcon
  have hfilter := hcon.filter (· ≠ x)
  rw [rotation_snoc hl hc hx, List.filter_cons_of_pos (by simpa using hp),
    List.filter_cons_of_pos (by simpa using hq), List.filter_nil] at hfilter
  exact h hfilter

/-- The search ends at an element before the third one, and the next one starts there. -/
theorem step {a b : List A} (h : Behind l c p q) (hl : l.Nodup) (hc : c ∈ l)
    (hrot : rotation l c = a ++ x :: b) (hq : q ∈ b) : Behind l x p q := by
  have hx : x ∈ l := ((mem_rotation hl hc).mp (by rw [hrot]; simp)).1
  have hnodup := nodup_rotation hl hx
  have hnext := rotation_step hl hc hrot
  rw [hnext] at hnodup
  have hqa : q ∉ c :: a := fun hcon => (List.nodup_append.mp hnodup).2.2 q hq q hcon rfl
  intro hcon
  rw [hnext] at hcon
  obtain ⟨s, t, heq, hs, ht⟩ := List.sublist_append_iff.mp hcon
  -- the third element stands before the old start, so the second one does as well
  have hts : t = [] := by
    rcases List.eq_nil_or_concat t with rfl | ⟨t', y, rfl⟩
    · rfl
    · have hlast : ([p] ++ [q] : List A) = (s ++ t') ++ [y] := by
        rw [List.concat_eq_append] at heq
        rw [List.append_assoc]
        exact heq
      have hy : q = y := by
        have := (List.append_inj' hlast rfl).2
        exact (List.cons.inj this).1
      exact absurd (ht.subset (by rw [hy]; simp)) hqa
  rw [hts, List.append_nil] at heq
  rw [← heq] at hs
  refine h (hrot ▸ ?_)
  exact hs.trans ((List.sublist_cons_self _ _).trans (List.sublist_append_right _ _))

/-- When the search ends at the second element, the third one was before it. -/
theorem not_mem {a b : List A} (h : Behind l c p q) (hrot : rotation l c = a ++ p :: b) :
    q ∉ b := by
  intro hq
  refine h (hrot ▸ ?_)
  have hpair : [p, q].Sublist (p :: b) := (List.singleton_sublist.mpr hq).cons_cons p
  exact hpair.trans (List.sublist_append_right _ _)

end Behind
end Nyxis
