import Nyxis.Vfs.Calls
import Mathlib.Data.List.TakeWhile

/-!
# The two resolvers

{lit}`resolve_path_internal_ns` and {lit}`resolve_parent_ns` are separate copies of one loop.  Both
go along the components of the path, whatever slashes stand between them: the first along all of
them, the second along all but the last, which it returns.

Main results:

- Theorem {lit}`parseSegment_cases`: a segment is the next component of the path.
- Theorems {lit}`resolveLoop_eq` and {lit}`parentLoop_eq`: the two loops go along the components.
- Theorem {lit}`resolvers_agree`: a path resolves to what its parent and one more step give.
-/

namespace Nyxis
namespace Vfs

variable {σ α β : Type} {drivers : Nat → VfsOps σ}

/-! ## Components -/

/-- The components of a path: what stands between its slashes. -/
def components (path : List UInt8) : List Name :=
  (path.splitOn slash).filter (fun name => decide (name ≠ []))

theorem components_nil : components [] = [] :=
  rfl

@[simp]
theorem components_slash_cons (path : List UInt8) :
    components (slash :: path) = components path := by
  unfold components
  rw [List.splitOn_cons_eq_if_modifyHead]
  simp

/-- Slashes in front of a path do not matter. -/
theorem components_skipSlashes (path : List UInt8) :
    components (skipSlashes path) = components path := by
  unfold skipSlashes
  induction path with
  | nil => rfl
  | cons b path ih =>
      by_cases hb : b = slash
      · rw [List.dropWhile_cons_of_pos (by simpa using hb), hb, components_slash_cons]
        exact ih
      · rw [List.dropWhile_cons_of_neg (by simpa using hb)]

/-- A slash ends the first component. -/
theorem components_append_slash {name rest : List UInt8} (hname : slash ∉ name) (hne : name ≠ []) :
    components (name ++ slash :: rest) = name :: components rest := by
  have hall : ∀ b ∈ name, (b == slash) = false := by
    intro b hb
    rw [beq_eq_false_iff_ne]
    rintro rfl
    exact hname hb
  unfold components
  rw [List.splitOn_eq_splitOnP, List.splitOn_eq_splitOnP,
    List.splitOnP_append_cons_of_forall_mem hall slash (by simp), List.filter_cons_of_pos (by simpa)]

/-- A path without slashes is one component. -/
theorem components_single {name : List UInt8} (hname : slash ∉ name) (hne : name ≠ []) :
    components name = [name] := by
  unfold components
  rw [List.splitOn_eq_singleton hname]
  simp [hne]

/-- A path that does not begin with a slash begins with its first component. -/
theorem components_segment {source : List UInt8} {b : UInt8} {bs : List UInt8}
    (hsource : source = b :: bs) (hb : b ≠ slash) :
    source.takeWhile (fun b => decide (b ≠ slash)) ≠ [] ∧
      components source = source.takeWhile (fun b => decide (b ≠ slash)) ::
        components (skipSlashes (source.dropWhile (fun b => decide (b ≠ slash)))) := by
  have hne : source.takeWhile (fun b => decide (b ≠ slash)) ≠ [] := by
    rw [hsource, List.takeWhile_cons_of_pos (by simpa using hb)]
    simp
  have hname : slash ∉ source.takeWhile (fun b => decide (b ≠ slash)) := by
    intro hcon
    have := List.mem_takeWhile_imp hcon
    simp at this
  have hsplit := List.takeWhile_append_dropWhile
    (p := fun b => decide (b ≠ slash)) (l := source)
  refine ⟨hne, ?_⟩
  rw [components_skipSlashes]
  cases hrest : source.dropWhile (fun b => decide (b ≠ slash)) with
  | nil =>
      rw [hrest, List.append_nil] at hsplit
      rw [hsplit] at hname hne ⊢
      rw [components_single hname hne, components_nil]
  | cons s rest =>
      have hs : s = slash := by
        have := List.head?_dropWhile_not (fun b => decide (b ≠ slash)) source
        rw [hrest] at this
        simpa using this
      rw [hrest, hs] at hsplit
      rw [hs, components_slash_cons]
      conv_lhs => rw [← hsplit]
      exact components_append_slash hname hne

/-- Skipping slashes ends at the terminator or at another character. -/
theorem skipSlashes_cases (path : List UInt8) :
    skipSlashes path = [] ∨ ∃ b bs, skipSlashes path = b :: bs ∧ b ≠ slash := by
  cases hskip : skipSlashes path with
  | nil => exact Or.inl rfl
  | cons b bs =>
      have := List.head?_dropWhile_not (fun b => decide (b = slash)) path
      unfold skipSlashes at hskip
      rw [hskip] at this
      exact Or.inr ⟨b, bs, rfl, by simpa using this⟩

/-- Only a path of slashes has no components. -/
theorem skipSlashes_eq_nil_iff (path : List UInt8) :
    skipSlashes path = [] ↔ components path = [] := by
  rw [← components_skipSlashes path]
  constructor
  · intro hskip
    rw [hskip, components_nil]
  · intro hnone
    rcases skipSlashes_cases path with hskip | ⟨b, bs, hskip, hb⟩
    · exact hskip
    · rw [(components_segment hskip hb).2] at hnone
      cases hnone

/-- {lit}`parse_segment` takes the next component and the slashes behind it. -/
theorem parseSegment_cases (cursor : List UInt8) :
    (components cursor = [] ∧ parseSegment cursor = .ok ([], [])) ∨
    ∃ name rest, components cursor = name :: components rest ∧ name ≠ [] ∧
      skipSlashes rest = rest ∧ rest.length < cursor.length ∧
      parseSegment cursor =
        if name.length > vfsNameMax then .error .NpathTooLong else .ok (name, rest) := by
  rcases skipSlashes_cases cursor with hskip | ⟨b, bs, hskip, hb⟩
  · refine Or.inl ⟨(skipSlashes_eq_nil_iff cursor).mp hskip, ?_⟩
    unfold parseSegment
    rw [hskip]
    rfl
  · obtain ⟨hne, hcomponents⟩ := components_segment hskip hb
    have hsource : skipSlashes cursor ≠ [] := by
      rw [hskip]
      simp
    refine Or.inr ⟨_, _, (components_skipSlashes cursor).symm.trans hcomponents, hne,
      skipSlashes_idem _, ?_, ?_⟩
    · have hsplit := List.takeWhile_append_dropWhile
        (p := fun b => decide (b ≠ slash)) (l := skipSlashes cursor)
      have hlen := congrArg List.length hsplit
      rw [List.length_append] at hlen
      have hpos := List.length_pos_of_ne_nil hne
      have h₁ := length_skipSlashes_le
        ((skipSlashes cursor).dropWhile (fun b => decide (b ≠ slash)))
      have h₂ := length_skipSlashes_le cursor
      omega
    · unfold parseSegment
      rw [if_neg hsource]
      rfl

/-- The leading slash that the resolvers skip does not matter. -/
theorem components_startCursor (path : List UInt8) :
    components (startCursor path) = components path := by
  unfold startCursor
  split
  next hhead =>
    cases path with
    | nil => rfl
    | cons b path =>
        rw [List.head?_cons, Option.some.injEq] at hhead
        rw [hhead, components_slash_cons, List.tail_cons]
  next => rfl

/-! ## Going along the components -/

/-- Go along components from a dentry, child by child. -/
def walk (drivers : Nat → VfsOps σ) (missing : Nstatus) : Nat → List Name → VfsM σ Nat
  | current, [] => pure current
  | current, name :: names =>
      if name.length > vfsNameMax then failWith .NpathTooLong
      else do
        let child ← childStep drivers missing current name
        walk drivers missing child names

/-- Give back a dentry and the name to look up in it, if the name is not too long. -/
def lastName (current : Nat) (name : Name) : VfsM σ (Nat × Name) :=
  if name.length > vfsNameMax then failWith .NpathTooLong else pure (current, name)

theorem walk_append (missing : Nstatus) (current : Nat) (names names' : List Name) :
    walk drivers missing current (names ++ names') =
      walk drivers missing current names >>= fun child => walk drivers missing child names' := by
  induction names generalizing current with
  | nil => rfl
  | cons name names ih =>
      rw [List.cons_append, walk, walk]
      split
      next => rfl
      next =>
        rw [Eff.bind_assoc_eq]
        exact congrArg _ (funext fun child => ih child)

/-- The loop of {lit}`resolve_path_internal_ns` goes along all components. -/
theorem resolveLoop_eq {fuel : Nat} {cursor : List UInt8} (hfuel : cursor.length ≤ fuel)
    (current : Nat) : resolveLoop drivers fuel current cursor =
      walk drivers .NfileNotFound current (components cursor) := by
  induction fuel generalizing cursor current with
  | zero =>
      rw [List.eq_nil_of_length_eq_zero (Nat.le_zero.mp hfuel)]
      rfl
  | succ fuel ih =>
      unfold resolveLoop
      by_cases hnil : cursor = []
      · rw [if_pos hnil, hnil]
        rfl
      rw [if_neg hnil]
      rcases parseSegment_cases cursor with ⟨hnone, hparse⟩ | ⟨name, rest, hnames, hne, -, hlt, hparse⟩
      · rw [hparse, hnone]
        rfl
      · rw [hparse, hnames, walk]
        split
        next e heq =>
          split at heq
          next hlong =>
            rw [if_pos hlong, Except.error.inj heq]
          next => cases heq
        next name' rest' heq =>
          split at heq
          next => cases heq
          next hshort =>
            cases heq
            rw [if_neg hne, if_neg hshort]
            exact congrArg _ (funext fun child => ih (by omega) child)

/-- The loop of {lit}`resolve_parent_ns` goes along all components but the last. -/
theorem parentLoop_eq {fuel : Nat} {cursor : List UInt8} (hfuel : cursor.length ≤ fuel)
    (current : Nat) {names : List Name} {last : Name} (hnames : components cursor = names ++ [last]) :
    parentLoop drivers fuel current cursor = (do
      let parent ← walk drivers .NnotFound current names
      let (parent, name) ← lastName parent last
      pure (parent, .inl name)) := by
  induction fuel generalizing cursor current names with
  | zero =>
      rw [List.eq_nil_of_length_eq_zero (Nat.le_zero.mp hfuel), components_nil] at hnames
      exact absurd hnames (by simp)
  | succ fuel ih =>
      have hnil : cursor ≠ [] := by
        rintro rfl
        rw [components_nil] at hnames
        exact absurd hnames (by simp)
      unfold parentLoop
      rw [if_neg hnil]
      rcases parseSegment_cases cursor with ⟨hnone, -⟩ | ⟨name, rest, hfirst, hne, hskip, hlt, hparse⟩
      · rw [hnone] at hnames
        exact absurd hnames (by simp)
      rw [hparse]
      rw [hfirst] at hnames
      split
      next e heq =>
        split at heq
        next hlong =>
          rw [← Except.error.inj heq]
          cases names with
          | nil =>
              obtain ⟨rfl, -⟩ := List.cons.inj hnames
              unfold lastName
              simp only [walk, if_pos hlong]
              rfl
          | cons name' names' =>
              obtain ⟨rfl, -⟩ := List.cons.inj hnames
              rw [walk, if_pos hlong]
              rfl
        next => cases heq
      next name₁ rest₁ heq =>
        split at heq
        next => cases heq
        next hshort =>
          cases heq
          rw [if_neg hne, hskip]
          cases names with
          | nil =>
              obtain ⟨rfl, hrest⟩ := List.cons.inj hnames
              rw [← skipSlashes_eq_nil_iff, hskip] at hrest
              unfold lastName
              simp only [walk, if_pos hrest, if_neg hshort]
              rfl
          | cons name' names' =>
              obtain ⟨rfl, hrest⟩ := List.cons.inj hnames
              have hmore : rest ≠ [] := by
                rintro rfl
                rw [components_nil] at hrest
                exact absurd hrest (by simp)
              rw [if_neg hmore, walk, if_neg hshort, Eff.bind_assoc_eq]
              exact congrArg _ (funext fun child => ih (by omega) child hrest)

/-! ## Agreement -/

/-- Two outcomes are the same, or they are the two codes for a missing name. -/
def SameOutcome (r r' : Except Stop α) : Prop :=
  r = r' ∨ r = .error (.status .NfileNotFound) ∧ r' = .error (.status .NnotFound)

/-- Two computations leave the same state and the same outcome, up to the code for a missing
name. -/
def Agree (m m' : VfsM σ α) : Prop :=
  ∀ v, (m v).2 = (m' v).2 ∧ SameOutcome (m v).1 (m' v).1

theorem Agree.refl (m : VfsM σ α) : Agree m m :=
  fun _ => ⟨rfl, Or.inl rfl⟩

theorem Agree.missing :
    Agree (failWith .NfileNotFound : VfsM σ α) (failWith .NnotFound) :=
  fun _ => ⟨rfl, Or.inr ⟨rfl, rfl⟩⟩

theorem Agree.bind {m m' : VfsM σ α} {f f' : α → VfsM σ β} (hm : Agree m m')
    (hf : ∀ a, Agree (f a) (f' a)) : Agree (m >>= f) (m' >>= f') := by
  intro v
  obtain ⟨hstate, hout⟩ := hm v
  cases hrun : m v with
  | mk r v₁ =>
      cases hrun' : m' v with
      | mk r' v₁' =>
          rw [hrun, hrun'] at hstate hout
          obtain rfl : v₁ = v₁' := hstate
          rcases hout with hsame | ⟨hmiss, hmiss'⟩
          · obtain rfl : r = r' := hsame
            cases r with
            | ok a =>
                rw [Eff.bind_ok hrun, Eff.bind_ok hrun']
                exact hf a v₁
            | error e =>
                rw [Eff.bind_error hrun, Eff.bind_error hrun']
                exact ⟨rfl, Or.inl rfl⟩
          · obtain rfl : r = .error (.status .NfileNotFound) := hmiss
            obtain rfl : r' = .error (.status .NnotFound) := hmiss'
            rw [Eff.bind_error hrun, Eff.bind_error hrun']
            exact ⟨rfl, Or.inr ⟨rfl, rfl⟩⟩

/-- The two resolvers take the same step to a child. -/
theorem childStep_agree (current : Nat) (name : Name) :
    Agree (childStep drivers .NfileNotFound current name)
      (childStep drivers .NnotFound current name) := by
  refine Agree.bind (Agree.refl _) fun child => ?_
  cases child with
  | some child => exact Agree.refl _
  | none =>
      refine Agree.bind (Agree.refl _) fun ops => ?_
      rcases ops with - | ⟨dir, ops⟩
      · exact Agree.missing
      · dsimp only
        cases ops.lookup with
        | none => exact Agree.missing
        | some lookup =>
            refine Agree.bind (Agree.refl _) fun vnode => ?_
            cases vnode with
            | none => exact Agree.missing
            | some vnode => exact Agree.refl _

theorem walk_agree (current : Nat) (names : List Name) :
    Agree (walk drivers .NfileNotFound current names) (walk drivers .NnotFound current names) := by
  induction names generalizing current with
  | nil => exact Agree.refl _
  | cons name names ih =>
      rw [walk, walk]
      split
      next => exact Agree.refl _
      next => exact Agree.bind (childStep_agree current name) ih

/-- A walk along one component is a look at the name and one step. -/
theorem walk_last (current : Nat) (last : Name) :
    walk drivers .NfileNotFound current [last] =
      (lastName current last >>= fun place =>
        childStep drivers .NfileNotFound place.1 place.2 : VfsM σ Nat) := by
  unfold lastName
  simp only [walk]
  split
  next => rfl
  next =>
    change childStep drivers .NfileNotFound current last >>= pure = _
    funext v
    cases hrun : childStep drivers .NfileNotFound current last v with
    | mk r v₁ =>
        cases r with
        | ok child =>
            rw [Eff.bind_ok hrun]
            exact hrun.symm
        | error e =>
            rw [Eff.bind_error hrun]
            exact hrun.symm

/-- {lit}`resolve_path_internal_ns` goes along the components of the path. -/
theorem resolvePathInternalNs_eq (drivers : Nat → VfsOps σ) (ns : Nat) (path : List UInt8) (v : VfsState σ) :
    resolvePathInternalNs drivers ns path v =
      walk drivers .NfileNotFound (startOf (v.namespaces ns) path) (components path) v := by
  unfold resolvePathInternalNs
  rw [Eff.gets_bind_run, resolveLoop_eq le_rfl, components_startCursor]

/-- {lit}`resolve_parent_ns` goes along all components but the last and returns that one. -/
theorem resolveParentNs_eq (drivers : Nat → VfsOps σ) (ns : Nat) {path : List UInt8} {names : List Name} {last : Name}
    (hnames : components path = names ++ [last]) (v : VfsState σ) :
    resolveParentNs drivers ns path v =
      (walk drivers .NnotFound (startOf (v.namespaces ns) path) names >>= fun parent =>
        lastName parent last) v := by
  unfold resolveParentNs
  rw [Eff.gets_bind_run, parentLoop_eq le_rfl _ ((components_startCursor path).trans hnames),
    Eff.bind_assoc_eq]
  refine congrFun (congrArg _ (funext fun parent => ?_)) v
  unfold lastName
  split
  next => rfl
  next => rfl

/-- A path with a component resolves to what its parent and one more step from there give: the same
dentry or failure, up to the code for a missing name, and the same state.  The two resolvers go
along the same components, whatever slashes stand around them. -/
theorem resolvers_agree (drivers : Nat → VfsOps σ) (v : VfsState σ) (ns : Nat) (path : List UInt8)
    (hpath : components path ≠ []) {missing : Nstatus}
    (hmissing : missing = .NfileNotFound ∨ missing = .NnotFound) :
    (∃ names last, components path = names ++ [last] ∧
      resolvePathInternalNs drivers ns path v =
        walk drivers .NfileNotFound (startOf (v.namespaces ns) path) (names ++ [last]) v ∧
      resolveParentNs drivers ns path v =
        (walk drivers .NnotFound (startOf (v.namespaces ns) path) names >>= fun parent =>
          lastName parent last) v) ∧
    (resolvePathInternalNs drivers ns path v).2 =
      ((resolveParentNs drivers ns path >>= fun place =>
        childStep drivers missing place.1 place.2) v).2 ∧
    SameOutcome (resolvePathInternalNs drivers ns path v).1
      ((resolveParentNs drivers ns path >>= fun place =>
        childStep drivers missing place.1 place.2) v).1 := by
  obtain ⟨names, last, hnames⟩ : ∃ names last, components path = names ++ [last] :=
    ⟨_, _, (List.dropLast_append_getLast hpath).symm⟩
  have hdirect := resolvePathInternalNs_eq drivers ns path v
  have hparent := resolveParentNs_eq drivers ns hnames v
  rw [hnames] at hdirect
  refine ⟨⟨names, last, hnames, hdirect, hparent⟩, ?_⟩
  -- both are a walk to the parent, a look at the last name and one step
  have hfirst : Agree (walk drivers .NfileNotFound (startOf (v.namespaces ns) path) (names ++ [last]))
      ((walk drivers .NnotFound (startOf (v.namespaces ns) path) names >>= fun parent =>
        lastName parent last) >>= fun place => childStep drivers missing place.1 place.2) := by
    rw [walk_append, Eff.bind_assoc_eq]
    refine Agree.bind (walk_agree _ names) fun parent => ?_
    rw [walk_last]
    refine Agree.bind (Agree.refl _) fun place => ?_
    rcases hmissing with rfl | rfl
    · exact Agree.refl _
    · exact childStep_agree _ _
  have hsecond : (resolveParentNs drivers ns path >>= fun place =>
        childStep drivers missing place.1 place.2) v =
      ((walk drivers .NnotFound (startOf (v.namespaces ns) path) names >>= fun parent =>
        lastName parent last) >>= fun place => childStep drivers missing place.1 place.2) v := by
    change Eff.andThen _ _ v = Eff.andThen _ _ v
    unfold Eff.andThen
    rw [hparent]
  rw [hdirect, hsecond]
  exact hfirst v

/-- A driver that finds every name. -/
def findsAll : Nat → VfsOps Unit := fun _ =>
  { lookup := some (fun _ _ => pure (some 0))
    openFile := none
    read := none
    write := none
    close := none
    stat := none
    create := none
    mkdir := none
    unlink := none
    readdir := none
    rename := none }

/-- A mounted root and an empty cache. -/
def bareVfs : VfsState Unit where
  dentries := fun i => { Dentry.zero with node := some 0, inUse := decide (i = 0) }
  namespaces := fun _ => Namespace.zero
  defaultNamespace := some 0
  drv := { vnodes := fun _ => { Vnode.zero with ops := some 0 }, fs := () }

/-- The path {lit}`//a///b/`. -/
def slashedPath : List UInt8 := [47, 47, 97, 47, 47, 47, 98, 47]

theorem resolvers_agree_small :
    components slashedPath = [[97], [98]] ∧
      (resolvePathInternalNs findsAll 0 slashedPath bareVfs).1 = .ok 2 ∧
      SameOutcome (resolvePathInternalNs findsAll 0 slashedPath bareVfs).1
        ((resolveParentNs findsAll 0 slashedPath >>= fun place =>
          childStep findsAll .NnotFound place.1 place.2) bareVfs).1 := by
  have hcomponents : components slashedPath = [[97], [98]] := by decide
  have hpath : components slashedPath ≠ [] := by
    rw [hcomponents]
    exact List.cons_ne_nil _ _
  exact ⟨hcomponents, by decide +kernel,
    (resolvers_agree findsAll bareVfs 0 slashedPath hpath (Or.inr rfl)).2.2⟩

end Vfs
end Nyxis
