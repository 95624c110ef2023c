import Nyxis.Vfs.Calls
import Nyxis.Lib.Linked

/-!
# The dentry tree

The child lists that the links of the dentry table spell out, and what the
primitive operations on dentries do to them.

Main results:

- Definition {lit}`Tree`: the child lists end, their members are in use and name
  their parent.
- Theorem {lit}`Tree.findChild_run`: the search through a child list returns.
- Theorems {lit}`Tree.setFree`, {lit}`Tree.attach`, {lit}`Tree.detach_run` and
  {lit}`Tree.free`: the primitive operations keep the tree.
-/

namespace Nyxis
namespace Vfs

variable {σ : Type} {v : VfsState σ} {ds ds' : Nat → Dentry} {kids : Nat → List Nat}

/-- The links of a dentry table spell out the given child lists. -/
structure Tree (ds : Nat → Dentry) (kids : Nat → List Nat) : Prop where
  linked : ∀ d, Linked (fun c => (ds c).nextSibling) (ds d).firstChild (kids d)
  used : ∀ d c, c ∈ kids d → (ds d).inUse ∧ (ds c).inUse
  parent : ∀ d c, c ∈ kids d → (ds c).parent = some d
  irrefl : ∀ d, d ∉ kids d
  bound : ∀ d, (ds d).inUse → d < vfsMaxDentries

/-- The tree depends on the links, the parents and the slots in use only. -/
theorem Tree.congr (h : Tree ds kids) (hfirst : ∀ d, (ds' d).firstChild = (ds d).firstChild)
    (hnext : ∀ d, (ds' d).nextSibling = (ds d).nextSibling)
    (hparent : ∀ d, (ds' d).parent = (ds d).parent)
    (hused : ∀ d, (ds' d).inUse = (ds d).inUse) : Tree ds' kids where
  linked := by
    intro d
    rw [hfirst]
    exact (h.linked d).congr (fun c _ => hnext c)
  used := by
    intro d c hc
    rw [hused, hused]
    exact h.used d c hc
  parent := by
    intro d c hc
    rw [hparent]
    exact h.parent d c hc
  irrefl := h.irrefl
  bound := by
    intro d hd
    rw [hused] at hd
    exact h.bound d hd

/-- A dentry is a child of one parent only. -/
theorem Tree.parent_unique (h : Tree ds kids) {c d e : Nat} (hd : c ∈ kids d) (he : c ∈ kids e) :
    d = e :=
  Option.some.inj ((h.parent d c hd).symm.trans (h.parent e c he))

/-- A free slot has no children. -/
theorem Tree.kids_free (h : Tree ds kids) {d : Nat} (hd : (ds d).inUse = false) : kids d = [] := by
  refine List.eq_nil_iff_forall_not_mem.mpr (fun c hc => ?_)
  have hused := (h.used d c hc).1
  rw [hd] at hused
  cases hused

/-- A free slot is nobody's child. -/
theorem Tree.not_kid_of_free (h : Tree ds kids) {c : Nat} (hc : (ds c).inUse = false) (d : Nat) :
    c ∉ kids d := by
  intro hmem
  have hused := (h.used d c hmem).2
  rw [hc] at hused
  cases hused

/-- A child list has no more members than the table has slots. -/
theorem Tree.length_le (h : Tree ds kids) (d : Nat) : (kids d).length ≤ vfsMaxDentries := by
  have hsub : kids d ⊆ List.range vfsMaxDentries := by
    intro c hc
    exact List.mem_range.mpr (h.bound c (h.used d c hc).2)
  have hlen := (List.subperm_of_subset (h.linked d).nodup hsub).length_le
  rwa [List.length_range] at hlen

/-! ## Searching a child list -/

/-- The search returns the first child of the given name. -/
theorem findLoop_eq (name : Name) {fuel : Nat} {head : Option Nat} {l : List Nat}
    (h : Linked (fun c => (ds c).nextSibling) head l) (hfuel : l.length ≤ fuel) :
    findLoop ds name fuel head = .ok (l.find? (fun c => decide ((ds c).name = name))) := by
  induction l generalizing fuel head with
  | nil =>
      rw [Linked.nil_iff] at h
      subst h
      rw [findLoop, List.find?_nil]
  | cons c l ih =>
      obtain ⟨rfl, htail⟩ := h
      cases fuel with
      | zero => simp at hfuel
      | succ fuel =>
          rw [findLoop]
          by_cases hname : (ds c).name = name
          · simp [hname]
          · rw [if_neg hname, ih htail (by simpa using hfuel)]
            simp [hname]

/-- The child of a dentry under a name, as far as it is cached. -/
def cachedChild (ds : Nat → Dentry) (parent : Nat) (name : Name) : Option Nat :=
  match findLoop ds name vfsMaxDentries (ds parent).firstChild with
  | .ok child => child
  | .error _ => none

/-- The search through a child list returns, with the cached child. -/
theorem Tree.findChild_run (h : Tree v.dentries kids) (parent : Nat) (name : Name) :
    findChild parent name v = (.ok (cachedChild v.dentries parent name), v) := by
  have hfind := findLoop_eq name (h.linked parent) (h.length_le parent)
  rw [findChild, cachedChild, hfind]

theorem Tree.cachedChild_eq (h : Tree ds kids) (parent : Nat) (name : Name) :
    cachedChild ds parent name =
      (kids parent).find? (fun c => decide ((ds c).name = name)) := by
  rw [cachedChild, findLoop_eq name (h.linked parent) (h.length_le parent)]

/-- What the search finds is a child. -/
theorem Tree.cachedChild_mem (h : Tree ds kids) {parent c : Nat} {name : Name}
    (hc : cachedChild ds parent name = some c) : c ∈ kids parent := by
  rw [h.cachedChild_eq] at hc
  exact List.mem_of_find?_eq_some hc

/-- What the search finds has the name. -/
theorem Tree.cachedChild_name (h : Tree ds kids) {parent c : Nat} {name : Name}
    (hc : cachedChild ds parent name = some c) : (ds c).name = name := by
  rw [h.cachedChild_eq] at hc
  simpa using List.find?_some hc

/-! ## Allocating and freeing -/

/-- A slot found free is inside the table and free. -/
theorem firstFree_spec {inUse : Nat → Bool} {count i : Nat} (h : firstFree inUse count = some i) :
    i < count ∧ inUse i = false := by
  have hmem := List.mem_of_find?_eq_some h
  have hfree := List.find?_some h
  exact ⟨List.mem_range.mp hmem, by simpa using hfree⟩

/-- The content of a freshly allocated dentry. -/
def freshDentry (name : Name) (node parent : Option Nat) : Dentry :=
  { Dentry.zero with
    name := name.take vfsNameMax, node := node, parent := parent, inUse := true }

/-- Allocation fills the first free slot. -/
theorem allocDentry_eq (name : Name) (node parent : Option Nat) (v : VfsState σ) :
    allocDentry name node parent v =
      (.ok (firstFree (fun i => (v.dentries i).inUse) vfsMaxDentries),
        match firstFree (fun i => (v.dentries i).inUse) vfsMaxDentries with
        | none => v
        | some i => { v with
            dentries := Function.update v.dentries i (freshDentry name node parent) }) := by
  unfold allocDentry
  rw [Eff.gets_bind_run]
  cases firstFree (fun i => (v.dentries i).inUse) vfsMaxDentries with
  | none => rfl
  | some i => rfl

/-- Allocation fills a free slot, or finds none. -/
theorem allocDentry_run (name : Name) (node parent : Option Nat) (v : VfsState σ) :
    allocDentry name node parent v = (.ok none, v) ∨
      ∃ i, i < vfsMaxDentries ∧ (v.dentries i).inUse = false ∧
        allocDentry name node parent v = (.ok (some i), { v with
          dentries := Function.update v.dentries i (freshDentry name node parent) }) := by
  rw [allocDentry_eq]
  cases hfree : firstFree (fun i => (v.dentries i).inUse) vfsMaxDentries with
  | none => exact Or.inl rfl
  | some i =>
      obtain ⟨hi, hused⟩ := firstFree_spec hfree
      exact Or.inr ⟨i, hi, hused, rfl⟩

/-- Writing a dentry without children to a free slot keeps the tree. -/
theorem Tree.setFree (h : Tree ds kids) {i : Nat} (hi : i < vfsMaxDentries)
    (hfree : (ds i).inUse = false) {e : Dentry} (he : e.firstChild = none) :
    Tree (Function.update ds i e) kids where
  linked := by
    intro d
    have hlinked : Linked
        (fun c => (Function.update ds i e c).nextSibling)
        (ds d).firstChild (kids d) := by
      refine (h.linked d).congr (fun c hc => ?_)
      have hne : c ≠ i := by
        rintro rfl
        exact h.not_kid_of_free hfree d hc
      simp only [Function.update_of_ne hne]
    by_cases hd : d = i
    · subst hd
      rw [Function.update_self, h.kids_free hfree]
      exact he
    · rwa [Function.update_of_ne hd]
  used := by
    intro d c hc
    have hdi : d ≠ i := by
      rintro rfl
      rw [h.kids_free hfree] at hc
      cases hc
    have hci : c ≠ i := by
      rintro rfl
      exact h.not_kid_of_free hfree d hc
    rw [Function.update_of_ne hdi, Function.update_of_ne hci]
    exact h.used d c hc
  parent := by
    intro d c hc
    have hci : c ≠ i := by
      rintro rfl
      exact h.not_kid_of_free hfree d hc
    rw [Function.update_of_ne hci]
    exact h.parent d c hc
  irrefl := h.irrefl
  bound := by
    intro d hd
    by_cases hdi : d = i
    · rw [hdi]
      exact hi
    · rw [Function.update_of_ne hdi] at hd
      exact h.bound d hd

/-- Freeing a dentry that is nobody's child leaves its own children without a
parent. -/
theorem Tree.free (h : Tree ds kids) {d : Nat} (hd : ∀ e, d ∉ kids e) :
    Tree (Function.update ds d { Dentry.zero with name := (ds d).name })
      (Function.update kids d []) where
  linked := by
    intro e
    by_cases he : e = d
    · subst he
      rw [Function.update_self, Function.update_self]
      rfl
    · rw [Function.update_of_ne he, Function.update_of_ne he]
      refine (h.linked e).congr (fun c hc => ?_)
      have hne : c ≠ d := by
        rintro rfl
        exact hd e hc
      simp only [Function.update_of_ne hne]
  used := by
    intro e c hc
    by_cases he : e = d
    · subst he
      rw [Function.update_self] at hc
      cases hc
    · rw [Function.update_of_ne he] at hc
      have hne : c ≠ d := by
        rintro rfl
        exact hd e hc
      rw [Function.update_of_ne he, Function.update_of_ne hne]
      exact h.used e c hc
  parent := by
    intro e c hc
    by_cases he : e = d
    · subst he
      rw [Function.update_self] at hc
      cases hc
    · rw [Function.update_of_ne he] at hc
      have hne : c ≠ d := by
        rintro rfl
        exact hd e hc
      rw [Function.update_of_ne hne]
      exact h.parent e c hc
  irrefl := by
    intro e
    by_cases he : e = d
    · subst he
      rw [Function.update_self]
      exact List.not_mem_nil
    · rw [Function.update_of_ne he]
      exact h.irrefl e
  bound := by
    intro e he
    by_cases hed : e = d
    · subst hed
      rw [Function.update_self] at he
      cases he
    · rw [Function.update_of_ne hed] at he
      exact h.bound e he

/-! ## Attaching and detaching -/

/-- The table after {lit}`attach_child`. -/
def attached (ds : Nat → Dentry) (parent child : Nat) : Nat → Dentry :=
  let ds₁ := Function.update ds child { ds child with nextSibling := (ds parent).firstChild }
  Function.update ds₁ parent { ds₁ parent with firstChild := some child }

theorem attachChild_run (parent child : Nat) (v : VfsState σ) :
    attachChild parent child v =
      (.ok (), { v with dentries := attached v.dentries parent child }) :=
  rfl

variable {p c : Nat}

theorem attached_firstChild (ds : Nat → Dentry) (p c d : Nat) :
    (attached ds p c d).firstChild = if d = p then some c else (ds d).firstChild := by
  by_cases hp : d = p
  · simp [attached, hp]
  · by_cases hc : d = c
    · subst hc
      simp [attached, hp]
    · simp [attached, hp, hc]

theorem attached_nextSibling (hne : c ≠ p) (d : Nat) :
    (attached ds p c d).nextSibling =
      if d = c then (ds p).firstChild else (ds d).nextSibling := by
  by_cases hc : d = c
  · subst hc
    simp [attached, hne]
  · by_cases hp : d = p
    · subst hp
      simp [attached, hc]
    · simp [attached, hp, hc]

@[simp]
theorem attached_parent (ds : Nat → Dentry) (p c d : Nat) :
    (attached ds p c d).parent = (ds d).parent := by
  simp only [attached, Function.update_apply]
  split_ifs with h₁ h₂ h₂ <;> simp_all

@[simp]
theorem attached_inUse (ds : Nat → Dentry) (p c d : Nat) :
    (attached ds p c d).inUse = (ds d).inUse := by
  simp only [attached, Function.update_apply]
  split_ifs with h₁ h₂ h₂ <;> simp_all

@[simp]
theorem attached_name (ds : Nat → Dentry) (p c d : Nat) :
    (attached ds p c d).name = (ds d).name := by
  simp only [attached, Function.update_apply]
  split_ifs with h₁ h₂ h₂ <;> simp_all

@[simp]
theorem attached_node (ds : Nat → Dentry) (p c d : Nat) :
    (attached ds p c d).node = (ds d).node := by
  simp only [attached, Function.update_apply]
  split_ifs with h₁ h₂ h₂ <;> simp_all

/-- Attaching a dentry that is nobody's child puts it in front of the child list. -/
theorem Tree.attach (h : Tree ds kids) (hp : (ds p).inUse) (hc : (ds c).inUse)
    (hparent : (ds c).parent = some p) (hne : c ≠ p) (hkid : ∀ e, c ∉ kids e) :
    Tree (attached ds p c) (Function.update kids p (c :: kids p)) where
  linked := by
    intro d
    have hrest : ∀ e, Linked (fun x => (attached ds p c x).nextSibling) (ds e).firstChild
        (kids e) := by
      intro e
      refine (h.linked e).congr (fun x hx => ?_)
      have hxc : x ≠ c := by
        rintro rfl
        exact hkid e hx
      simp only [attached_nextSibling hne, if_neg hxc]
    rw [attached_firstChild]
    by_cases hd : d = p
    · subst hd
      rw [if_pos rfl, Function.update_self]
      have hc' : (attached ds d c c).nextSibling = (ds d).firstChild := by
        rw [attached_nextSibling hne, if_pos rfl]
      refine ⟨rfl, ?_⟩
      change Linked _ (attached ds d c c).nextSibling _
      rw [hc']
      exact hrest d
    · rw [if_neg hd, Function.update_of_ne hd]
      exact hrest d
  used := by
    intro d x hx
    simp only [attached_inUse]
    by_cases hd : d = p
    · subst hd
      rw [Function.update_self, List.mem_cons] at hx
      rcases hx with rfl | hx
      · exact ⟨hp, hc⟩
      · exact h.used d x hx
    · rw [Function.update_of_ne hd] at hx
      exact h.used d x hx
  parent := by
    intro d x hx
    rw [attached_parent]
    by_cases hd : d = p
    · subst hd
      rw [Function.update_self, List.mem_cons] at hx
      rcases hx with rfl | hx
      · exact hparent
      · exact h.parent d x hx
    · rw [Function.update_of_ne hd] at hx
      exact h.parent d x hx
  irrefl := by
    intro d hx
    by_cases hd : d = p
    · subst hd
      rw [Function.update_self, List.mem_cons] at hx
      rcases hx with rfl | hx
      · exact hne rfl
      · exact h.irrefl d hx
    · rw [Function.update_of_ne hd] at hx
      exact h.irrefl d hx
  bound := by
    intro d hd
    rw [attached_inUse] at hd
    exact h.bound d hd

/-- The table after a dentry has been taken out behind a sibling, or from the front
of a child list. -/
def unlinked (ds : Nat → Dentry) (parent : Nat) (previous : Option Nat) (child : Nat) :
    Nat → Dentry :=
  let ds₁ := match previous with
    | some q => Function.update ds q { ds q with nextSibling := (ds child).nextSibling }
    | none => Function.update ds parent { ds parent with firstChild := (ds child).nextSibling }
  Function.update ds₁ child { ds₁ child with nextSibling := none }

@[simp]
theorem unlinked_parent (ds : Nat → Dentry) (p : Nat) (previous : Option Nat) (c d : Nat) :
    (unlinked ds p previous c d).parent = (ds d).parent := by
  cases previous <;> simp only [unlinked, Function.update_apply] <;>
    split_ifs <;> simp_all

@[simp]
theorem unlinked_inUse (ds : Nat → Dentry) (p : Nat) (previous : Option Nat) (c d : Nat) :
    (unlinked ds p previous c d).inUse = (ds d).inUse := by
  cases previous <;> simp only [unlinked, Function.update_apply] <;>
    split_ifs <;> simp_all

@[simp]
theorem unlinked_name (ds : Nat → Dentry) (p : Nat) (previous : Option Nat) (c d : Nat) :
    (unlinked ds p previous c d).name = (ds d).name := by
  cases previous <;> simp only [unlinked, Function.update_apply] <;>
    split_ifs <;> simp_all

@[simp]
theorem unlinked_node (ds : Nat → Dentry) (p : Nat) (previous : Option Nat) (c d : Nat) :
    (unlinked ds p previous c d).node = (ds d).node := by
  cases previous <;> simp only [unlinked, Function.update_apply] <;>
    split_ifs <;> simp_all

theorem unlinked_firstChild (ds : Nat → Dentry) (p : Nat) (previous : Option Nat) (c d : Nat) :
    (unlinked ds p previous c d).firstChild =
      if previous = none ∧ d = p then (ds c).nextSibling else (ds d).firstChild := by
  cases previous <;> simp only [unlinked, Function.update_apply] <;>
    split_ifs <;> simp_all

theorem unlinked_nextSibling (ds : Nat → Dentry) (p : Nat) (previous : Option Nat) (c d : Nat) :
    (unlinked ds p previous c d).nextSibling =
      if d = c then none
      else if previous = some d then (ds c).nextSibling
      else (ds d).nextSibling := by
  cases previous <;> simp only [unlinked, Function.update_apply] <;>
    split_ifs <;> simp_all

/-- The loop of {lit}`detach_child` stops at the child and redirects the link in
front of it. -/
theorem detachLoop_run {l₁ l₂ : List Nat} {fuel : Nat} {head previous : Option Nat}
    (h : Linked (fun x => (v.dentries x).nextSibling) head (l₁ ++ c :: l₂))
    (hc : c ∉ l₁) (hfuel : (l₁ ++ c :: l₂).length ≤ fuel) :
    detachLoop p c fuel head previous v = (.ok (), { v with
      dentries := unlinked v.dentries p (l₁.getLast?.or previous) c }) := by
  induction l₁ generalizing fuel head previous with
  | nil =>
      obtain ⟨rfl, _⟩ := h
      cases fuel with
      | zero => simp at hfuel
      | succ fuel =>
          rw [detachLoop, Eff.gets_bind_run, if_pos rfl]
          cases previous <;> rfl
  | cons x l₁ ih =>
      obtain ⟨rfl, htail⟩ := h
      rw [List.mem_cons, not_or] at hc
      cases fuel with
      | zero => simp at hfuel
      | succ fuel =>
          rw [detachLoop, Eff.gets_bind_run, if_neg (Ne.symm hc.1),
            ih htail hc.2 (by simpa using hfuel)]
          cases l₁ with
          | nil => simp
          | cons y l₁ =>
              rw [List.getLast?_cons_cons, List.getLast?_eq_some_getLast (by simp)]
              simp

/-- The loop of {lit}`detach_child` changes nothing when the child is not there. -/
theorem detachLoop_absent {l : List Nat} {fuel : Nat} {head previous : Option Nat}
    (h : Linked (fun x => (v.dentries x).nextSibling) head l) (hc : c ∉ l)
    (hfuel : l.length ≤ fuel) :
    detachLoop p c fuel head previous v = (.ok (), v) := by
  induction l generalizing fuel head previous with
  | nil =>
      rw [Linked.nil_iff] at h
      subst h
      rw [detachLoop]
      rfl
  | cons x l ih =>
      obtain ⟨rfl, htail⟩ := h
      rw [List.mem_cons, not_or] at hc
      cases fuel with
      | zero => simp at hfuel
      | succ fuel =>
          rw [detachLoop, Eff.gets_bind_run, if_neg (Ne.symm hc.1)]
          exact ih htail hc.2 (by simpa using hfuel)

/-- Taking a child out of the list that holds it. -/
theorem Tree.unlink {l₁ l₂ : List Nat} (h : Tree ds kids) (hkids : kids p = l₁ ++ c :: l₂) :
    Tree (unlinked ds p l₁.getLast? c) (Function.update kids p (l₁ ++ l₂)) := by
  have hlinked := h.linked p
  rw [hkids] at hlinked
  have hnodup := hlinked.nodup
  have hnodup' := List.nodup_middle.mp hnodup
  have hcout : c ∉ l₁ ++ l₂ := (List.nodup_cons.mp hnodup').1
  have hmem : c ∈ kids p := by
    rw [hkids]
    exact List.mem_append_right _ (List.mem_cons_self ..)
  have hpc : p ≠ c := by
    rintro rfl
    exact h.irrefl p hmem
  have hsub : ∀ d x, x ∈ Function.update kids p (l₁ ++ l₂) d → x ∈ kids d := by
    intro d x hx
    by_cases hd : d = p
    · subst hd
      rw [Function.update_self] at hx
      rw [hkids]
      rcases List.mem_append.mp hx with hx | hx
      · exact List.mem_append_left _ hx
      · exact List.mem_append_right _ (List.mem_cons_of_mem _ hx)
    · rwa [Function.update_of_ne hd] at hx
  refine ⟨?_, ?_, ?_, ?_, ?_⟩
  · intro d
    by_cases hd : d = p
    · subst hd
      rw [Function.update_self, unlinked_firstChild]
      rcases List.eq_nil_or_concat l₁ with rfl | ⟨l, q, rfl⟩
      · -- the child is the first one: the list starts behind it
        rw [if_pos ⟨rfl, rfl⟩]
        refine hlinked.2.congr (fun x hx => ?_)
        have hxc : x ≠ c := by
          rintro rfl
          exact hcout hx
        simp only [unlinked_nextSibling, if_neg hxc, List.getLast?_nil, reduceCtorEq, if_false]
      · -- the link of the sibling in front skips the child
        rw [List.concat_eq_append] at hlinked hcout ⊢
        have hlast : (l ++ [q]).getLast? = some q := by simp
        rw [hlast, if_neg (by simp)]
        rw [List.append_assoc] at hlinked
        have hskip := Linked.unlink (q := q) (x := c) hlinked
        have happ : l ++ [q] ++ l₂ = l ++ q :: l₂ := by simp
        rw [happ] at hcout ⊢
        refine hskip.congr (fun x hx => ?_)
        have hxc : x ≠ c := by
          rintro rfl
          exact hcout hx
        rw [unlinked_nextSibling, if_neg hxc]
        by_cases hxq : x = q
        · subst hxq
          rw [if_pos rfl, Function.update_self]
        · rw [if_neg (fun hcon => hxq (Option.some.inj hcon).symm), Function.update_of_ne hxq]
    · rw [Function.update_of_ne hd, unlinked_firstChild, if_neg (fun hcon => hd hcon.2)]
      refine (h.linked d).congr (fun x hx => ?_)
      have hxp : x ∉ kids p := by
        intro hcon
        exact hd (h.parent_unique hx hcon)
      have hxc : x ≠ c := by
        rintro rfl
        exact hxp hmem
      have hxq : l₁.getLast? ≠ some x := by
        intro hcon
        apply hxp
        rw [hkids]
        exact List.mem_append_left _ (List.mem_of_getLast? hcon)
      rw [unlinked_nextSibling, if_neg hxc, if_neg hxq]
  · intro d x hx
    rw [unlinked_inUse, unlinked_inUse]
    exact h.used d x (hsub d x hx)
  · intro d x hx
    rw [unlinked_parent]
    exact h.parent d x (hsub d x hx)
  · intro d hx
    exact h.irrefl d (hsub d d hx)
  · intro d hd
    rw [unlinked_inUse] at hd
    exact h.bound d hd

/-- The dentries have kept their names and their vnodes. -/
def SameLabels (ds ds' : Nat → Dentry) : Prop :=
  ∀ d, (ds' d).name = (ds d).name ∧ (ds' d).node = (ds d).node

/-- What {lit}`detach_child` does to a child: the list closes over it, every other
field is kept, and no dentry gains a sibling link. -/
theorem Tree.detach_run (h : Tree v.dentries kids) (hc : c ∈ kids p) :
    ∃ ds, detachChild p c v = (.ok (), { v with dentries := ds }) ∧
      Tree ds (Function.update kids p ((kids p).erase c)) ∧
      (∀ d, (ds d).parent = (v.dentries d).parent) ∧
      (∀ d, (ds d).inUse = (v.dentries d).inUse) ∧
      SameLabels v.dentries ds ∧
      (∀ d, (v.dentries d).nextSibling = none → (ds d).nextSibling = none) := by
  obtain ⟨l₁, l₂, hout, hkids, herase⟩ := List.exists_erase_eq hc
  have hlinked := h.linked p
  have hlen := h.length_le p
  rw [hkids] at hlinked hlen
  refine ⟨unlinked v.dentries p l₁.getLast? c, ?_, ?_, ?_, ?_, ?_, ?_⟩
  · rw [detachChild, Eff.gets_bind_run, detachLoop_run hlinked hout hlen, Option.or_none]
  · rw [herase]
    exact h.unlink hkids
  · intro d
    exact unlinked_parent _ _ _ _ d
  · intro d
    exact unlinked_inUse _ _ _ _ d
  · intro d
    exact ⟨unlinked_name _ _ _ _ d, unlinked_node _ _ _ _ d⟩
  · intro d hd
    rw [unlinked_nextSibling]
    by_cases hdc : d = c
    · rw [if_pos hdc]
    · rw [if_neg hdc, if_neg ?_, hd]
      -- the sibling in front of the child has a link, so it is not this dentry
      intro hlast
      obtain ⟨l, hl⟩ := List.getLast?_eq_some_iff.mp hlast
      rw [hl, List.append_assoc] at hlinked
      have hnext := hlinked.tail_of_append.1
      rw [hd] at hnext
      cases hnext

/-- Detaching from a dentry that does not have the child changes nothing. -/
theorem Tree.detach_absent (h : Tree v.dentries kids) (hc : c ∉ kids p) :
    detachChild p c v = (.ok (), v) := by
  rw [detachChild, Eff.gets_bind_run]
  exact detachLoop_absent (h.linked p) hc (h.length_le p)

/-! ## Dropping and moving -/

/-- The child lists after a dentry has been dropped. -/
def dropped (kids : Nat → List Nat) (p d : Nat) : Nat → List Nat :=
  Function.update (Function.update kids p ((kids p).erase d)) d []

theorem mem_dropped {p d x e : Nat} (hx : x ∈ kids e) (hxd : x ≠ d) (hed : e ≠ d) :
    x ∈ dropped kids p d e := by
  rw [dropped, Function.update_of_ne hed]
  by_cases hep : e = p
  · subst hep
    rw [Function.update_self]
    exact (List.mem_erase_of_ne hxd).mpr hx
  · rwa [Function.update_of_ne hep]

theorem mem_of_mem_dropped {p d x e : Nat} (hx : x ∈ dropped kids p d e) : x ∈ kids e := by
  unfold dropped at hx
  by_cases hed : e = d
  · subst hed
    rw [Function.update_self] at hx
    cases hx
  · rw [Function.update_of_ne hed] at hx
    by_cases hep : e = p
    · subst hep
      rw [Function.update_self] at hx
      exact List.mem_of_mem_erase hx
    · rwa [Function.update_of_ne hep] at hx

/-- A child has left the tree and its slot is free; its own children have lost their
parent, and the other dentries have kept their place. -/
structure Released (ds : Nat → Dentry) (kids : Nat → List Nat) (p d : Nat) (ds' : Nat → Dentry) :
    Prop where
  tree : Tree ds' (dropped kids p d)
  freed : (ds' d).inUse = false
  kept : ∀ x, x ≠ d → (ds' x).inUse = (ds x).inUse
  labels : ∀ x, x ≠ d → (ds' x).name = (ds x).name ∧ (ds' x).node = (ds x).node
  next : ∀ x, (ds x).nextSibling = none → (ds' x).nextSibling = none

/-- Detaching a child and clearing its slot. -/
theorem Tree.release (h : Tree v.dentries kids) {d : Nat} (hd : d ∈ kids p) :
    ∃ ds, detachChild p d v = (.ok (), { v with dentries := ds }) ∧
      (ds d).node = (v.dentries d).node ∧
      Released v.dentries kids p d
        (Function.update ds d { Dentry.zero with name := (ds d).name }) := by
  obtain ⟨ds, hrun, htree, hparent, hused, hlabels, hnext⟩ := h.detach_run hd
  have hout : ∀ e, d ∉ Function.update kids p ((kids p).erase d) e := by
    intro e he
    by_cases hep : e = p
    · subst hep
      rw [Function.update_self] at he
      exact ((h.linked e).nodup.not_mem_erase) he
    · rw [Function.update_of_ne hep] at he
      exact hep (h.parent_unique he hd)
  refine ⟨ds, hrun, (hlabels d).2, htree.free hout, ?_, ?_, ?_, ?_⟩
  · rw [Function.update_self]
    rfl
  · intro x hx
    rw [Function.update_of_ne hx]
    exact hused x
  · intro x hx
    rw [Function.update_of_ne hx]
    exact hlabels x
  · intro x hx
    by_cases hxd : x = d
    · subst hxd
      rw [Function.update_self]
      rfl
    · rw [Function.update_of_ne hxd]
      exact hnext x hx

/-- Dropping a child releases it, and its vnode. -/
theorem Tree.drop_run (h : Tree v.dentries kids) {d : Nat} (hd : d ∈ kids p) :
    ∃ ds, dropDentry p d v = (.ok (), { v with
        dentries := ds, drv := (vfsFreeVnode (v.dentries d).node v.drv).2 }) ∧
      Released v.dentries kids p d ds := by
  obtain ⟨ds, hrun, hnode, hreleased⟩ := h.release hd
  refine ⟨_, ?_, hreleased⟩
  rw [dropDentry, Eff.bind_ok hrun, ← hnode]
  simp only [Eff.gets_bind_run]
  cases (ds d).node <;> rfl

/-- A dentry that is nobody's child may get another name and parent. -/
theorem Tree.setPlace (h : Tree ds kids) {d : Nat} (hd : ∀ e, d ∉ kids e) (name : Name)
    (parent : Option Nat) :
    Tree (Function.update ds d { ds d with name := name, parent := parent }) kids where
  linked := by
    intro e
    have hfirst : (Function.update ds d { ds d with name := name, parent := parent } e).firstChild =
        (ds e).firstChild := by
      by_cases he : e = d
      · subst he
        rw [Function.update_self]
      · rw [Function.update_of_ne he]
    rw [hfirst]
    refine (h.linked e).congr (fun x hx => ?_)
    have hne : x ≠ d := by
      rintro rfl
      exact hd e hx
    rw [Function.update_of_ne hne]
  used := by
    intro e x hx
    have hne : x ≠ d := by
      rintro rfl
      exact hd e hx
    rw [Function.update_of_ne hne]
    refine ⟨?_, (h.used e x hx).2⟩
    by_cases he : e = d
    · subst he
      rw [Function.update_self]
      exact (h.used e x hx).1
    · rw [Function.update_of_ne he]
      exact (h.used e x hx).1
  parent := by
    intro e x hx
    have hne : x ≠ d := by
      rintro rfl
      exact hd e hx
    rw [Function.update_of_ne hne]
    exact h.parent e x hx
  irrefl := h.irrefl
  bound := by
    intro e he
    by_cases hed : e = d
    · subst hed
      rw [Function.update_self] at he
      exact h.bound e he
    · rw [Function.update_of_ne hed] at he
      exact h.bound e he

/-- The child lists after a dentry has been moved. -/
def moved (kids : Nat → List Nat) (oldParent newParent d : Nat) : Nat → List Nat :=
  let rest := Function.update kids oldParent ((kids oldParent).erase d)
  Function.update rest newParent (d :: rest newParent)

theorem mem_moved {oldParent newParent d x e : Nat} (hx : x ∈ kids e) (hxd : x ≠ d) :
    x ∈ moved kids oldParent newParent d e := by
  have hrest : x ∈ Function.update kids oldParent ((kids oldParent).erase d) e := by
    by_cases heo : e = oldParent
    · subst heo
      rw [Function.update_self]
      exact (List.mem_erase_of_ne hxd).mpr hx
    · rwa [Function.update_of_ne heo]
  rw [moved]
  by_cases hen : e = newParent
  · subst hen
    rw [Function.update_self]
    exact List.mem_cons_of_mem d hrest
  · rwa [Function.update_of_ne hen]

theorem mem_moved_self {oldParent newParent d : Nat} :
    d ∈ moved kids oldParent newParent d newParent := by
  rw [moved]
  rw [Function.update_self]
  exact List.mem_cons_self ..

/-- A dentry has got another parent and another name; the other dentries have kept
theirs. -/
structure Relocated (ds : Nat → Dentry) (kids : Nat → List Nat) (oldParent newParent d : Nat)
    (name : Name) (ds' : Nat → Dentry) : Prop where
  tree : Tree ds' (moved kids oldParent newParent d)
  used : ∀ x, (ds' x).inUse = (ds x).inUse
  next : ∀ x, x ≠ d → (ds x).nextSibling = none → (ds' x).nextSibling = none
  node : ∀ x, (ds' x).node = (ds x).node
  name_self : (ds' d).name = name.take vfsNameMax
  names : ∀ x, x ≠ d → (ds' x).name = (ds x).name

/-- A move takes a dentry, which may have lost its parent before, to the front of the
new parent's child list. -/
theorem Tree.move_run (h : Tree v.dentries kids) {oldParent newParent d : Nat} (name : Name)
    (hold : ∀ e, d ∈ kids e → e = oldParent) (hd : (v.dentries d).inUse)
    (hnew : (v.dentries newParent).inUse) (hne : d ≠ newParent) :
    ∃ ds, moveDentry oldParent newParent d name v = (.ok (), { v with dentries := ds }) ∧
      Relocated v.dentries kids oldParent newParent d name ds := by
  have hstep : ∃ ds₁, detachChild oldParent d v = (.ok (), { v with dentries := ds₁ }) ∧
      Tree ds₁ (Function.update kids oldParent ((kids oldParent).erase d)) ∧
      (∀ x, (ds₁ x).inUse = (v.dentries x).inUse) ∧ SameLabels v.dentries ds₁ ∧
      (∀ x, (v.dentries x).nextSibling = none → (ds₁ x).nextSibling = none) := by
    by_cases hmem : d ∈ kids oldParent
    · obtain ⟨ds₁, hrun, htree, _, hused, hlabels, hnext⟩ := h.detach_run hmem
      exact ⟨ds₁, hrun, htree, hused, hlabels, hnext⟩
    · refine ⟨v.dentries, h.detach_absent hmem, ?_, fun _ => rfl, fun _ => ⟨rfl, rfl⟩,
        fun _ hx => hx⟩
      rwa [List.erase_of_not_mem hmem, Function.update_eq_self]
  obtain ⟨ds₁, hrun, htree, hused, hlabels, hnext⟩ := hstep
  have hout : ∀ e, d ∉ Function.update kids oldParent ((kids oldParent).erase d) e := by
    intro e he
    by_cases heo : e = oldParent
    · subst heo
      rw [Function.update_self] at he
      exact ((h.linked e).nodup.not_mem_erase) he
    · rw [Function.update_of_ne heo] at he
      exact heo (hold e he)
  have hplaced := htree.setPlace hout (name.take vfsNameMax) (some newParent)
  have hused₂ : ∀ x, (Function.update ds₁ d { ds₁ d with
      name := name.take vfsNameMax, parent := some newParent } x).inUse =
        (v.dentries x).inUse := by
    intro x
    by_cases hx : x = d
    · subst hx
      rw [Function.update_self]
      exact hused x
    · rw [Function.update_of_ne hx]
      exact hused x
  refine ⟨attached (Function.update ds₁ d { ds₁ d with
      name := name.take vfsNameMax, parent := some newParent }) newParent d, ?_, ?_, ?_, ?_, ?_,
      ?_, ?_⟩
  · rw [moveDentry, Eff.bind_ok hrun]
    rfl
  · refine hplaced.attach ?_ ?_ ?_ hne hout
    · rw [hused₂]
      exact hnew
    · rw [hused₂]
      exact hd
    · rw [Function.update_self]
  · intro x
    rw [attached_inUse]
    exact hused₂ x
  · intro x hxd hx
    rw [attached_nextSibling hne, if_neg hxd, Function.update_of_ne hxd]
    exact hnext x hx
  · intro x
    rw [attached_node]
    by_cases hx : x = d
    · subst hx
      rw [Function.update_self]
      exact (hlabels x).2
    · rw [Function.update_of_ne hx]
      exact (hlabels x).2
  · rw [attached_name, Function.update_self]
  · intro x hx
    rw [attached_name, Function.update_of_ne hx]
    exact (hlabels x).1

end Vfs
end Nyxis
