import Nyxis.Mm.KernelMap

/-!
# Building the page tables of the kernel

Every part of {lit}`paging_init` adds tables from the pool and changes entries of the tables that
are there, but it changes them only as their roles allow.  What the direct map covers it goes on
to cover, and a page that may not be written through it stays so.  No two tables have the same
role, so the tables that are needed bound how much of the pool is used.

Main results:

- Definition {lit}`Builds`: what a part of {lit}`paging_init` does.
- Theorem {lit}`mapHhdm2m_builds`: the direct map covers a range.
- Theorem {lit}`hhdmMakeReadonly_builds`: a range may not be written through the direct map.
- Theorem {lit}`mapKernelImage_builds`: the pages of the image.
- Theorem {lit}`pagingInit_built`: the whole initialisation.
-/

namespace Nyxis
namespace Mm

variable {k : Platform} {roles roles' roles'' : List Role} {s s' s'' : Pager}

/-! ## Tables that hang together -/

/-- The first four tables. -/
def rootRoles : List Role :=
  [.pml4, .hhdmPdpt, .kernelPdpt, .kernelPd]

/-- The entry that leads to a table stands where the role of the table says. -/
def Owned (k : Platform) (roles : List Role) (s : Pager) (n : Nat) : Role → Prop
  | .pml4 => n = 0
  | .hhdmPdpt => n = 1
  | .kernelPdpt => n = 2
  | .kernelPd => n = 3
  | .hhdmPd i => s.memory.mem (k.table 1) i = linkEntry (k.table n)
  | .hhdmPt i j => ∃ m, roles[m]? = some (.hhdmPd i) ∧
      s.memory.mem (k.table m) j = linkEntry (k.table n)
  | .kernelPt j => s.memory.mem (k.table 3) j = linkEntry (k.table n)

/-- What an initialisation sets out to do: the tables it may take from the pool, and whether it may
refuse a range of addresses. -/
structure Plan where
  tables : Role → Prop
  refuses : Prop

variable {p : Plan}

/-- The tables of the kernel while they are built. -/
structure Rooted (k : Platform) (p : Plan) (roles : List Role) (s : Pager) : Prop where
  tables : Tables k roles s
  root : rootRoles <+: roles
  pml4 : s.memory.kernelPml4 = k.table 0
  pdptHhdm : s.pdptHhdm = k.table 1
  pdKernel : s.pdKernel = k.table 3
  link : s.memory.mem (k.table 0) hhdmPml4Index = linkEntry (k.table 1)
  owned : ∀ (n : Nat) role, roles[n]? = some role → Owned k roles s n role
  planned : ∀ (n : Nat) role, roles[n]? = some role → p.tables role

theorem linkEntry_ne_zero (p : Nat) : linkEntry p ≠ 0 := by
  intro hcon
  have hbit : (linkEntry p).testBit 0 = false := by rw [hcon, Nat.zero_testBit]
  rw [linkEntry, Nat.testBit_or, Nat.testBit_or, show pagePresent.testBit 0 = true from rfl] at hbit
  simp at hbit

/-- A large page is not an entry that leads to a table. -/
theorem linkEntry_ne_huge {p : Nat} (h : PageBase p) (q : Nat) (nx : Bool) :
    linkEntry p ≠ hugeEntry q nx := by
  intro hcon
  have hlink := (linkEntry_flags h).1.huge_eq
  rw [hcon, hasFlag_huge, hugeEntry, Nat.testBit_or, Nat.testBit_or,
    show pageHuge.testBit 7 = true from rfl] at hlink
  simp at hlink

theorem Tables.linkEntry_inj (h : Tables k roles s) {n m : Nat} {role role' : Role}
    (hn : roles[n]? = some role) (hm : roles[m]? = some role')
    (heq : linkEntry (k.table n) = linkEntry (k.table m)) : n = m := by
  have hsame : tableOf (linkEntry (k.table n)) = tableOf (linkEntry (k.table m)) := by rw [heq]
  rw [(linkEntry_flags (h.pageBase hn)).2, (linkEntry_flags (h.pageBase hm)).2] at hsame
  exact h.pool.table_inj hsame

theorem Rooted.top (h : Rooted k p roles s) : roles[0]? = some .pml4 :=
  getElem?_of_more h.root rfl

theorem Rooted.hhdm (h : Rooted k p roles s) : roles[1]? = some .hhdmPdpt :=
  getElem?_of_more h.root rfl

theorem Rooted.image (h : Rooted k p roles s) : roles[3]? = some .kernelPd :=
  getElem?_of_more h.root rfl

variable {i j l n m stop : Nat}

/-- An entry that leads to a page table stays, because no large page looks like it. -/
theorem Rooted.link_kept (h : Rooted k p roles s) (hext : Extends k roles s roles' s') {role : Role}
    (hm : roles[m]? = some (.hhdmPd i)) (hn : roles[n]? = some role)
    (hlink : s.memory.mem (k.table m) j = linkEntry (k.table n)) :
    s'.memory.mem (k.table m) j = linkEntry (k.table n) := by
  rcases hext.kept m _ hm j with hcon | heq | ⟨hcon, -⟩
  · rw [hlink] at hcon
    exact absurd hcon (linkEntry_ne_zero _)
  · rw [heq, hlink]
  · rw [hlink] at hcon
    exact absurd hcon (linkEntry_ne_huge (h.tables.pageBase hn) _ _)

theorem Rooted.owned_kept (h : Rooted k p roles s) (hext : Extends k roles s roles' s') {role : Role}
    (hn : roles[n]? = some role) : Owned k roles' s' n role := by
  have howned := h.owned n role hn
  have hkept : ∀ {e e' : Nat}, e = linkEntry (k.table n) → e = 0 ∨ e' = e →
      e' = linkEntry (k.table n) := by
    intro e e' he hcase
    rcases hcase with hcon | heq
    · rw [he] at hcon
      exact absurd hcon (linkEntry_ne_zero _)
    · rw [heq, he]
  cases role with
  | hhdmPd i => exact hkept howned (hext.kept 1 _ h.hhdm i)
  | kernelPt j => exact hkept howned (hext.kept 3 _ h.image j)
  | hhdmPt i j =>
      obtain ⟨m, hm, hlink⟩ := howned
      exact ⟨m, getElem?_of_more hext.more hm, h.link_kept hext hm hn hlink⟩
  | pml4 => exact howned
  | hhdmPdpt => exact howned
  | kernelPdpt => exact howned
  | kernelPd => exact howned

/-- A step that only adds tables and changes entries as they may change. -/
theorem Rooted.step (h : Rooted k p roles s) (htables : Tables k roles' s')
    (hext : Extends k roles s roles' s')
    (hnew : ∀ n role, roles.length ≤ n → roles'[n]? = some role →
      Owned k roles' s' n role ∧ p.tables role) : Rooted k p roles' s' := by
  have hold : ∀ n role, n < roles.length → roles'[n]? = some role → roles[n]? = some role := by
    intro n role hlt hn
    have hsome : roles[n]? = some roles[n] := List.getElem?_eq_getElem hlt
    rw [getElem?_of_more hext.more hsome] at hn
    rw [hsome, hn]
  refine ⟨htables, h.root.trans hext.more, hext.pml4.trans h.pml4, hext.pdptHhdm.trans h.pdptHhdm,
    hext.pdKernel.trans h.pdKernel, ?_, fun n role hn => ?_, fun n role hn => ?_⟩
  · rcases hext.kept 0 _ h.top hhdmPml4Index with hcon | heq
    · rw [h.link] at hcon
      exact absurd hcon (linkEntry_ne_zero _)
    · rw [heq, h.link]
  · by_cases hlt : n < roles.length
    · exact h.owned_kept hext (hold n role hlt hn)
    · exact (hnew n role (Nat.le_of_not_lt hlt) hn).1
  · by_cases hlt : n < roles.length
    · exact h.planned n role (hold n role hlt hn)
    · exact (hnew n role (Nat.le_of_not_lt hlt) hn).2

/-- A step that adds no table. -/
theorem Rooted.step_same (h : Rooted k p roles s) (htables : Tables k roles s')
    (hext : Extends k roles s roles s') : Rooted k p roles s' := by
  refine h.step htables hext (fun n role hle hn => ?_)
  have := (List.getElem?_eq_some_iff.mp hn).1
  omega

/-- No two tables have the same role. -/
theorem Rooted.role_inj (h : Rooted k p roles s) {role : Role} (hn : roles[n]? = some role)
    (hm : roles[m]? = some role) : n = m := by
  have hlinks : ∀ {e : Nat}, e = linkEntry (k.table n) → e = linkEntry (k.table m) → n = m :=
    fun he he' => h.tables.linkEntry_inj hn hm (he.symm.trans he')
  have hpd : ∀ {a b i : Nat}, roles[a]? = some (.hhdmPd i) → roles[b]? = some (.hhdmPd i) →
      a = b := by
    intro a b i ha hb
    exact h.tables.linkEntry_inj ha hb ((h.owned a _ ha).symm.trans (h.owned b _ hb))
  have hfirst := h.owned n role hn
  have hsecond := h.owned m role hm
  cases role with
  | hhdmPd i => exact hpd hn hm
  | kernelPt j => exact hlinks hfirst hsecond
  | hhdmPt i j =>
      obtain ⟨a, ha, hlink⟩ := hfirst
      obtain ⟨b, hb, hlink'⟩ := hsecond
      rw [hpd hb ha] at hlink'
      exact hlinks hlink hlink'
  | pml4 => exact hfirst.trans hsecond.symm
  | hhdmPdpt => exact hfirst.trans hsecond.symm
  | kernelPdpt => exact hfirst.trans hsecond.symm
  | kernelPd => exact hfirst.trans hsecond.symm

/-- A table that is taken from the pool and linked at once. -/
theorem Rooted.attach (h : Rooted k p roles s) (hroom : roles.length < pagingPoolPages)
    {role child : Role} {words : Nat → Nat} (hn : roles[n]? = some role)
    (hwords : ∀ l, EntryOk k (roles ++ [child]) child l (words l))
    (hlink : ∀ roles e, Links k roles child e → EntryOk k roles role i e)
    (hkept : EntryKept k role i (s.memory.mem (k.table n) i) (linkEntry (k.table roles.length)))
    (hchild : ∀ roles s m, roles[n]? = some role →
      s.memory.mem (k.table n) i = linkEntry (k.table m) → Owned k roles s m child)
    (hplan : p.tables child) :
    Rooted k p (roles ++ [child])
      ((s.fresh k words).store (k.table n) i (linkEntry (k.table roles.length))) ∧
    Extends k roles s (roles ++ [child])
      ((s.fresh k words).store (k.table n) i (linkEntry (k.table roles.length))) := by
  obtain ⟨htables, hext⟩ := h.tables.append hroom child hwords
  have hlast : (roles ++ [child])[roles.length]? = some child := List.getElem?_concat_length
  have hn' := getElem?_of_more hext.more hn
  obtain ⟨htables', hext'⟩ := htables.store hn' (hlink _ _ ⟨_, hlast, rfl⟩)
    (by rw [h.tables.fresh_mem words hn]; exact hkept)
  refine ⟨h.step htables' (hext.trans hext') (fun m role' hle hm => ?_), hext.trans hext'⟩
  have hm' : m = roles.length := by
    have := (List.getElem?_eq_some_iff.mp hm).1
    rw [List.length_append, List.length_singleton] at this
    omega
  rw [hm', hlast] at hm
  rw [hm', ← Option.some.inj hm]
  exact ⟨hchild _ _ _ hn' (Memory.store_mem_same _ _ _ _), hplan⟩

/-- A region is in the direct map. -/
def Covered (k : Platform) (roles : List Role) (s : Pager) (i j : Nat) : Prop :=
  ∃ n, roles[n]? = some (.hhdmPd i) ∧ s.memory.mem (k.table n) j ≠ 0

/-- A page may not be written through the direct map. -/
def Readonly (k : Platform) (roles : List Role) (s : Pager) (i j l : Nat) : Prop :=
  ∃ n, roles[n]? = some (.hhdmPt i j) ∧
    s.memory.mem (k.table n) l = readonlyEntry (regionPage i j l) k.cpuNx

theorem Covered.extends (h : Covered k roles s i j) (hext : Extends k roles s roles' s') :
    Covered k roles' s' i j := by
  obtain ⟨n, hn, hne⟩ := h
  refine ⟨n, getElem?_of_more hext.more hn, ?_⟩
  rcases hext.kept n _ hn j with hcon | heq | ⟨-, hne'⟩
  · exact absurd hcon hne
  · rw [heq]
    exact hne
  · exact hne'

theorem Readonly.extends (h : Readonly k roles s i j l) (hext : Extends k roles s roles' s') :
    Readonly k roles' s' i j l := by
  obtain ⟨n, hn, hentry⟩ := h
  exact ⟨n, getElem?_of_more hext.more hn, (hext.kept n _ hn l hentry).trans hentry⟩

/-! ## Computations that build tables -/

/-- A computation has only added planned tables and changed entries as they may change.  It fails
when the pool is empty, or with an address that is refused. -/
def Builds (k : Platform) (p : Plan) (roles : List Role) (s : Pager) {α : Type} (c : PagerM α)
    (Q : α → List Role → Pager → Prop) : Prop :=
  Eff.Post c s (fun r s' => ∃ roles', Rooted k p roles' s' ∧ Extends k roles s roles' s' ∧
    match r with
    | .ok a => Q a roles' s'
    | .error _ => pagingPoolPages ≤ roles'.length ∨ p.refuses)

variable {α β : Type}

theorem Builds.pure (h : Rooted k p roles s) {a : α} {Q : α → List Role → Pager → Prop}
    (hQ : Q a roles s) : Builds k p roles s (pure a) Q :=
  Eff.post_of_eq rfl ⟨roles, h, Extends.refl roles s, hQ⟩

theorem Builds.fail (h : Rooted k p roles s) {e : Nstatus} {Q : α → List Role → Pager → Prop}
    (hcause : pagingPoolPages ≤ roles.length ∨ p.refuses) :
    Builds k p roles s (Eff.fail e) Q :=
  Eff.post_of_eq rfl ⟨roles, h, Extends.refl roles s, hcause⟩

theorem Builds.modify {f : Pager → Pager} {Q : Unit → List Role → Pager → Prop}
    (h : Rooted k p roles (f s)) (hext : Extends k roles s roles (f s)) (hQ : Q () roles (f s)) :
    Builds k p roles s (Eff.modify f) Q :=
  Eff.post_of_eq rfl ⟨roles, h, hext, hQ⟩

theorem Builds.bind {c : PagerM α} {f : α → PagerM β} {R : α → List Role → Pager → Prop}
    {Q : β → List Role → Pager → Prop} (hc : Builds k p roles s c R)
    (hf : ∀ a roles' s', Rooted k p roles' s' → Extends k roles s roles' s' → R a roles' s' →
      Builds k p roles' s' (f a) Q) : Builds k p roles s (c >>= f) Q := by
  refine Eff.post_bind hc (fun e s' he => he) (fun a s' ha => ?_)
  obtain ⟨roles', hrooted, hext, hR⟩ := ha
  refine Eff.post_mono (hf a roles' s' hrooted hext hR) (fun r s'' hr => ?_)
  obtain ⟨roles'', hrooted', hext', hQ⟩ := hr
  exact ⟨roles'', hrooted', hext.trans hext', hQ⟩

theorem Builds.gets {g : Pager → α} {f : α → PagerM β} {Q : β → List Role → Pager → Prop}
    (h : Builds k p roles s (f (g s)) Q) : Builds k p roles s (Eff.gets g >>= f) Q :=
  Eff.post_gets_bind h

theorem Builds.mono {c : PagerM α} {Q R : α → List Role → Pager → Prop}
    (h : Builds k p roles s c R)
    (hQ : ∀ a roles' s', Extends k roles s roles' s' → R a roles' s' → Q a roles' s') :
    Builds k p roles s c Q := by
  refine Eff.post_mono h (fun r s' hr => ?_)
  obtain ⟨roles', hrooted, hext, hR⟩ := hr
  refine ⟨roles', hrooted, hext, ?_⟩
  cases r with
  | ok a => exact hQ a roles' s' hext hR
  | error e => exact hR

/-- The rule for a loop over addresses: what the body establishes for its address stays. -/
theorem addrLoop_builds {body : Nat → PagerM Unit} {step : Nat}
    {P : Nat → List Role → Pager → Prop} (hbound : stop + step ≤ 2 ^ 64)
    (hstable : ∀ addr roles s roles' s', Extends k roles s roles' s' → P addr roles s →
      P addr roles' s')
    {first : Nat} (hbody : ∀ addr roles s, first ≤ addr → addr < stop → addr % step = 0 →
      Rooted k p roles s → Builds k p roles s (body addr) (fun _ => P addr))
    (n : Nat) {addr : Nat} (hfirst : first ≤ addr) (haddr : addr % step = 0)
    (h : Rooted k p roles s) :
    Builds k p roles s (addrLoop body step stop n addr) (fun _ roles' s' =>
      ∀ m < n, addr + m * step < stop → P (addr + m * step) roles' s') := by
  induction n generalizing roles s addr with
  | zero => exact Builds.pure h (fun m hm => absurd hm (Nat.not_lt_zero m))
  | succ n ih =>
      unfold addrLoop
      split
      next hlt =>
        have hnext : (addr + step) % 2 ^ 64 = addr + step := Nat.mod_eq_of_lt (by omega)
        rw [hnext]
        refine Builds.bind (hbody addr roles s hfirst hlt haddr h)
          (fun _ roles₁ s₁ h₁ hext₁ hdone => ?_)
        have haddr' : (addr + step) % step = 0 := by
          rw [Nat.add_mod_right]
          exact haddr
        refine Builds.mono (ih (by omega) haddr' h₁) ?_
        intro _ roles₂ s₂ hext₂ hrest m hm hin
        cases m with
        | zero =>
            rw [Nat.zero_mul, Nat.add_zero]
            exact hstable addr _ _ _ _ hext₂ hdone
        | succ m =>
            have hplace : addr + (m + 1) * step = addr + step + m * step := by
              rw [Nat.succ_mul]
              omega
            rw [hplace] at hin ⊢
            exact hrest m (by omega) hin
      next hge =>
        refine Builds.pure h (fun m _ hin => ?_)
        omega

/-- Every address of a range that a loop steps on is one of its steps. -/
theorem exists_step {first addr step : Nat} (hstep : 0 < step) (hlo : first ≤ addr)
    (hhi : addr < stop) (hfirst : first % step = 0) (haddr : addr % step = 0) :
    ∃ m < stepsBetween first stop step, first + m * step = addr := by
  have hdvd : step ∣ addr - first :=
    Nat.dvd_sub (Nat.dvd_of_mod_eq_zero haddr) (Nat.dvd_of_mod_eq_zero hfirst)
  obtain ⟨m, hm⟩ := hdvd
  rw [Nat.mul_comm] at hm
  refine ⟨m, ?_, by omega⟩
  unfold stepsBetween
  rw [Nat.lt_iff_add_one_le, Nat.le_div_iff_mul_le hstep, Nat.succ_mul]
  omega

/-! ## Tables from the pool -/

/-- The run of an allocation while the pool is not empty. -/
theorem allocTable_run (h : s.poolUsed < pagingPoolPages) :
    allocTable k s = (.ok (some (k.table s.poolUsed)), s.fresh k (fun _ => 0)) := by
  unfold allocTable
  rw [Eff.gets_bind_run, if_neg (by omega)]
  rfl

theorem allocTable_empty (h : pagingPoolPages ≤ s.poolUsed) : allocTable k s = (.ok none, s) := by
  unfold allocTable
  rw [Eff.gets_bind_run, if_pos h]
  rfl

/-- What is known of a table that may be missing because the pool is empty. -/
def Obtained (P : Nat → List Role → Pager → Prop) (t : Option Nat) (roles : List Role)
    (s : Pager) : Prop :=
  match t with
  | none => pagingPoolPages ≤ roles.length
  | some table => P table roles s

/-- The table behind an entry, given the role that the entry leads to. -/
theorem linkedTable_builds (h : Rooted k p roles s) {role child : Role}
    (hn : roles[n]? = some role)
    (hlink : ∀ roles e, EntryOk k roles role i e ↔ e = 0 ∨ Links k roles child e)
    (hkept : ∀ e, EntryKept k role i 0 e) (hzero : ∀ roles j, EntryOk k roles child j 0)
    (hchild : ∀ roles s m, roles[n]? = some role →
      s.memory.mem (k.table n) i = linkEntry (k.table m) → Owned k roles s m child)
    (hplan : p.tables child) :
    Builds k p roles s (linkedTable k (k.table n) i) (Obtained (fun table roles' _ =>
      ∃ m, roles'[m]? = some child ∧ table = k.table m)) := by
  refine Builds.gets ?_
  have hentry := (hlink roles _).mp (h.tables.entries n role hn i)
  split
  next hpresent =>
    rcases hentry with hcon | ⟨m, hm, heq⟩
    · rw [hcon] at hpresent
      cases hpresent
    · refine Builds.pure h ⟨m, hm, ?_⟩
      rw [heq]
      exact (linkEntry_flags (h.tables.pageBase hm)).2
  next habsent =>
    have hnone : s.memory.mem (k.table n) i = 0 := by
      rcases hentry with hnone | ⟨m, hm, heq⟩
      · exact hnone
      · rw [heq] at habsent
        exact absurd (linkEntry_flags (h.tables.pageBase hm)).1.present habsent
    by_cases hroom : s.poolUsed < pagingPoolPages
    · obtain ⟨hrooted, hext⟩ := h.attach (by rw [← h.tables.used]; exact hroom) hn (hzero _)
        (fun roles e he => (hlink roles e).mpr (Or.inr he)) (by rw [hnone]; exact hkept _) hchild
        hplan
      have hlast : (roles ++ [child])[s.poolUsed]? = some child := by
        rw [h.tables.used]
        exact List.getElem?_concat_length
      rw [← h.tables.used] at hrooted hext
      refine Eff.post_bind_ok (allocTable_run hroom) ?_
      exact Eff.post_of_eq rfl ⟨_, hrooted, hext, s.poolUsed, hlast, rfl⟩
    · refine Eff.post_bind_ok (allocTable_empty (Nat.le_of_not_lt hroom)) ?_
      exact Builds.pure h (by rw [Obtained, ← h.tables.used]; exact Nat.le_of_not_lt hroom)

/-! ## The direct map -/

/-- The index that an address has at a level of the tables. -/
theorem index_eq (addr shift : Nat) : (addr >>> shift) &&& 0x1FF = addr / 2 ^ shift % 512 := by
  rw [Nat.shiftRight_eq_div_pow]
  exact Nat.and_two_pow_sub_one_eq_mod _ 9

theorem index_top {addr : Nat} (h : addr < pdptSpanLimit) :
    (addr >>> 30) &&& 0x1FF = addr / 2 ^ 30 := by
  have hspan : pdptSpanLimit = 0x8000000000 := rfl
  rw [index_eq]
  omega

theorem hhdmPd_builds (h : Rooted k p roles s) (hplan : p.tables (.hhdmPd i)) :
    Builds k p roles s (hhdmPd k i) (Obtained (fun table roles' _ =>
      ∃ n, roles'[n]? = some (.hhdmPd i) ∧ table = k.table n)) := by
  refine Builds.gets ?_
  rw [h.pdptHhdm]
  exact linkedTable_builds h h.hhdm (fun _ _ => Iff.rfl) (fun _ => Or.inl rfl)
    (fun _ _ => Or.inl rfl) (fun _ _ _ _ hlink => hlink) hplan

theorem hasFlag_hugeEntry_present (addr : Nat) (nx : Bool) :
    hasFlag (hugeEntry addr nx) pagePresent = true := by
  simp only [hugeEntry, hasFlag_present, Nat.testBit_or,
    show pagePresent.testBit 0 = true from rfl, Bool.or_true, Bool.true_or]

theorem hasFlag_hugeEntry_huge (addr : Nat) (nx : Bool) :
    hasFlag (hugeEntry addr nx) pageHuge = true := by
  simp only [hugeEntry, hasFlag_huge, Nat.testBit_or,
    show pageHuge.testBit 7 = true from rfl, Bool.or_true, Bool.true_or]

/-- A present entry is one that is not zero. -/
theorem Tables.present_iff (h : Tables k roles s) (hn : roles[n]? = some (.hhdmPd i)) :
    hasFlag (s.memory.mem (k.table n) j) pagePresent = true ↔ s.memory.mem (k.table n) j ≠ 0 := by
  constructor
  · intro hpresent hcon
    rw [hcon] at hpresent
    cases hpresent
  · intro hne
    rcases h.entries n _ hn j with hzero | heq | ⟨m, hm, heq⟩
    · exact absurd hzero hne
    · rw [heq]
      exact hasFlag_hugeEntry_present _ _
    · rw [heq]
      exact (linkEntry_flags (h.pageBase hm)).1.present

theorem mapRegion_builds (h : Rooted k p roles s) {addr : Nat} (hlt : addr < pdptSpanLimit)
    (haddr : addr % pageSize2m = 0) (hplan : p.tables (.hhdmPd (addr / 2 ^ 30))) :
    Builds k p roles s (mapRegion k addr)
      (fun _ roles' s' => Covered k roles' s' (addr / 2 ^ 30) (addr / 2 ^ 21 % 512)) := by
  unfold mapRegion
  rw [index_top hlt, index_eq]
  obtain ⟨i, hi⟩ : ∃ i, i = addr / 2 ^ 30 := ⟨_, rfl⟩
  obtain ⟨j, hj⟩ : ∃ j, j = addr / 2 ^ 21 % 512 := ⟨_, rfl⟩
  have hbase : addr = regionBase i j := by
    have hsize : pageSize2m = 0x200000 := rfl
    rw [hsize] at haddr
    unfold regionBase
    omega
  rw [← hi] at hplan ⊢
  rw [← hj, hbase]
  refine Builds.bind (hhdmPd_builds h hplan) (fun t roles₁ s₁ h₁ hext₁ ht => ?_)
  cases t with
  | none => exact Builds.fail h₁ (Or.inl ht)
  | some pd =>
      obtain ⟨n, hn, rfl⟩ := ht
      by_cases hpresent : hasFlag (s₁.memory.mem (k.table n) j) pagePresent = true
      · have hrun : (if hasFlag (s₁.memory.mem (k.table n) j) pagePresent then s₁
            else s₁.store (k.table n) j (hugeEntry (regionBase i j) s₁.memory.nxSupported)) = s₁ :=
          if_pos hpresent
        refine Builds.modify (by rw [hrun]; exact h₁) (by rw [hrun]; exact Extends.refl _ _) ?_
        rw [hrun]
        exact ⟨n, hn, (h₁.tables.present_iff hn).mp hpresent⟩
      · have hrun : (if hasFlag (s₁.memory.mem (k.table n) j) pagePresent then s₁
            else s₁.store (k.table n) j (hugeEntry (regionBase i j) s₁.memory.nxSupported)) =
            s₁.store (k.table n) j (hugeEntry (regionBase i j) k.cpuNx) := by
          rw [if_neg hpresent, h₁.tables.nx]
        have hzero : s₁.memory.mem (k.table n) j = 0 := by
          rw [h₁.tables.present_iff hn] at hpresent
          exact not_not.mp hpresent
        obtain ⟨hstored, hext⟩ := h₁.tables.store hn (i := j)
          (e := hugeEntry (regionBase i j) k.cpuNx) (Or.inr (Or.inl rfl)) (Or.inl hzero)
        refine Builds.modify (by rw [hrun]; exact h₁.step_same hstored hext)
          (by rw [hrun]; exact hext) ?_
        rw [hrun]
        refine ⟨n, hn, ?_⟩
        change (s₁.memory.store _ _ _).mem _ _ ≠ 0
        rw [Memory.store_mem_same]
        intro hcon
        have := hasFlag_hugeEntry_present (regionBase i j) k.cpuNx
        rw [hcon] at this
        cases this

theorem regionBase_div (i : Nat) {j : Nat} (hj : j < 512) : regionBase i j / 2 ^ 30 = i := by
  unfold regionBase
  omega

theorem regionBase_index (i : Nat) {j : Nat} (hj : j < 512) :
    regionBase i j / 2 ^ 21 % 512 = j := by
  unfold regionBase
  omega

theorem mapHhdm2m_builds (h : Rooted k p roles s) (start : Nat)
    (hplan : ∀ addr, pagingAlignDown start pageSize2m ≤ addr → addr < stop →
      p.tables (.hhdmPd (addr / 2 ^ 30))) (hrefuse : pdptSpanLimit < stop → p.refuses) :
    Builds k p roles s (mapHhdm2m k start stop) (fun _ roles' s' => ∀ i j, j < 512 →
      pagingAlignDown start pageSize2m ≤ regionBase i j → regionBase i j < stop →
        Covered k roles' s' i j) := by
  have hspan : pdptSpanLimit = 0x8000000000 := rfl
  have hsize : pageSize2m = 0x200000 := rfl
  have halign : pagingAlignDown start pageSize2m % pageSize2m = 0 := Nat.mul_mod_left _ _
  unfold mapHhdm2m
  split
  next hbig => exact Builds.fail h (Or.inr (hrefuse hbig))
  next hstop =>
    refine Builds.mono (addrLoop_builds (P := fun addr roles s =>
        Covered k roles s (addr / 2 ^ 30) (addr / 2 ^ 21 % 512)) (by omega)
      (fun _ _ _ _ _ hext hcovered => hcovered.extends hext)
      (fun addr roles s hlo hlt haddr hrooted =>
        mapRegion_builds hrooted (by omega) haddr (hplan addr hlo hlt)) _ (le_refl _) halign h) ?_
    intro _ roles' s' _ hcovered i j hj hlo hhi
    have hregion : regionBase i j % pageSize2m = 0 := by
      unfold regionBase
      rw [hsize]
      omega
    obtain ⟨m, hm, heq⟩ := exists_step (by rw [hsize]; omega) hlo hhi halign hregion
    have hdone := hcovered m hm (by rw [heq]; exact hhi)
    rw [heq, regionBase_div i hj, regionBase_index i hj] at hdone
    exact hdone

/-- Filling a cleared table of the pool. -/
theorem Pager.fresh_fillSplit (s : Pager) (base : Nat) :
    (s.fresh k (fun _ => 0)).fillSplit (k.table s.poolUsed) base = s.fresh k (fun l =>
      if l < entriesPerTable then splitEntry base s.memory.nxSupported l else 0) := by
  have hself := Pager.fresh_mem_self (k := k) s (fun _ => 0)
  unfold Pager.fillSplit
  rw [hself]
  unfold Pager.fresh
  simp only [Function.update_idem]

theorem hhdmPtFor_builds (h : Rooted k p roles s) {addr : Nat} (hlt : addr < pdptSpanLimit)
    (hplan : p.tables (.hhdmPd (addr / 2 ^ 30)))
    (hplan' : p.tables (.hhdmPt (addr / 2 ^ 30) (addr / 2 ^ 21 % 512))) :
    Builds k p roles s (hhdmPtFor k addr) (Obtained (fun table roles' _ =>
      ∃ n, roles'[n]? = some (.hhdmPt (addr / 2 ^ 30) (addr / 2 ^ 21 % 512)) ∧
        table = k.table n)) := by
  unfold hhdmPtFor
  rw [index_top hlt, index_eq]
  obtain ⟨i, hi⟩ : ∃ i, i = addr / 2 ^ 30 := ⟨_, rfl⟩
  obtain ⟨j, hj⟩ : ∃ j, j = addr / 2 ^ 21 % 512 := ⟨_, rfl⟩
  have hbase : pagingAlignDown addr pageSize2m = regionBase i j := by
    have hsize : pageSize2m = 0x200000 := rfl
    unfold pagingAlignDown regionBase
    rw [hsize]
    omega
  rw [← hi] at hplan hplan' ⊢
  rw [← hj] at hplan' ⊢
  refine Builds.bind (hhdmPd_builds h hplan) (fun t roles₁ s₁ h₁ hext₁ ht => ?_)
  cases t with
  | none => exact Builds.pure h₁ ht
  | some pd =>
      obtain ⟨n, hn, rfl⟩ := ht
      refine Builds.gets ?_
      rw [hbase]
      have hentry := h₁.tables.entries n _ hn j
      split
      next hsmall =>
        rcases hentry with heq | heq | ⟨m, hm, heq⟩
        · rw [heq] at hsmall
          cases hsmall
        · rw [heq, hasFlag_hugeEntry_huge, Bool.not_true, Bool.and_false] at hsmall
          cases hsmall
        · refine Builds.pure h₁ ⟨m, hm, ?_⟩
          rw [heq]
          exact (linkEntry_flags (h₁.tables.pageBase hm)).2
      next hlarge =>
        by_cases hroom : s₁.poolUsed < pagingPoolPages
        · have hkept : EntryKept k (.hhdmPd i) j (s₁.memory.mem (k.table n) j)
              (linkEntry (k.table roles₁.length)) := by
            rcases hentry with heq | heq | ⟨m, hm, heq⟩
            · exact Or.inl heq
            · exact Or.inr (Or.inr ⟨heq, linkEntry_ne_zero _⟩)
            · -- an entry that leads to a table would have been taken
              obtain ⟨hflags, -⟩ := linkEntry_flags (h₁.tables.pageBase hm)
              have hpresent := hflags.present
              rw [isPresent] at hpresent
              rw [heq, hpresent, hflags.huge_eq] at hlarge
              exact absurd rfl hlarge
          have hwords : ∀ l, EntryOk k (roles₁ ++ [.hhdmPt i j]) (.hhdmPt i j) l
              (if l < entriesPerTable then splitEntry (regionBase i j) s₁.memory.nxSupported l
                else 0) := by
            intro l hl
            rw [if_pos hl, h₁.tables.nx]
            exact Or.inl rfl
          obtain ⟨hrooted, hext⟩ := h₁.attach (by rw [← h₁.tables.used]; exact hroom) hn hwords
            (fun _ _ he => Or.inr (Or.inr he)) hkept
            (fun roles _ _ hn' hlink => ⟨n, hn', hlink⟩) hplan'
          have hlast : (roles₁ ++ [.hhdmPt i j])[s₁.poolUsed]? = some (.hhdmPt i j) := by
            rw [h₁.tables.used]
            exact List.getElem?_concat_length
          rw [← h₁.tables.used] at hrooted hext
          refine Eff.post_bind_ok (allocTable_run hroom) ?_
          refine Eff.post_bind_ok (Eff.modify_run _ _) ?_
          rw [Pager.fresh_fillSplit]
          exact Eff.post_of_eq rfl ⟨_, hrooted, hext, s₁.poolUsed, hlast, rfl⟩
        · refine Eff.post_bind_ok (allocTable_empty (Nat.le_of_not_lt hroom)) ?_
          exact Builds.pure h₁ (by rw [Obtained, ← h₁.tables.used]; exact Nat.le_of_not_lt hroom)

theorem protectPage_builds (h : Rooted k p roles s) {addr : Nat} (hlt : addr < pdptSpanLimit)
    (haddr : addr % pageSize = 0) (hplan : p.tables (.hhdmPd (addr / 2 ^ 30)))
    (hplan' : p.tables (.hhdmPt (addr / 2 ^ 30) (addr / 2 ^ 21 % 512))) :
    Builds k p roles s (protectPage k addr) (fun _ roles' s' =>
      Readonly k roles' s' (addr / 2 ^ 30) (addr / 2 ^ 21 % 512) (addr / 2 ^ 12 % 512)) := by
  have hpage : addr = regionPage (addr / 2 ^ 30) (addr / 2 ^ 21 % 512) (addr / 2 ^ 12 % 512) := by
    have hsize : pageSize = 4096 := rfl
    rw [hsize] at haddr
    unfold regionPage regionBase
    rw [hsize]
    omega
  unfold protectPage
  rw [index_eq]
  refine Builds.bind (hhdmPtFor_builds h hlt hplan hplan') (fun t roles₁ s₁ h₁ hext₁ ht => ?_)
  cases t with
  | none => exact Builds.fail h₁ (Or.inl ht)
  | some pt =>
      obtain ⟨n, hn, rfl⟩ := ht
      obtain ⟨hstored, hext⟩ := h₁.tables.store hn (i := addr / 2 ^ 12 % 512)
        (e := readonlyEntry addr s₁.memory.nxSupported)
        (fun _ => Or.inr (by rw [← hpage, h₁.tables.nx]))
        (fun heq => by rw [heq, ← hpage, h₁.tables.nx])
      refine Builds.modify (h₁.step_same hstored hext) hext ⟨n, hn, ?_⟩
      rw [← hpage, ← h₁.tables.nx]
      exact Memory.store_mem_same _ _ _ _

theorem regionPage_div (i : Nat) {j l : Nat} (hj : j < 512) (hl : l < 512) :
    regionPage i j l / 2 ^ 30 = i := by
  have hsize : pageSize = 4096 := rfl
  unfold regionPage regionBase
  rw [hsize]
  omega

theorem regionPage_index (i : Nat) {j l : Nat} (hj : j < 512) (hl : l < 512) :
    regionPage i j l / 2 ^ 21 % 512 = j ∧ regionPage i j l / 2 ^ 12 % 512 = l := by
  have hsize : pageSize = 4096 := rfl
  unfold regionPage regionBase
  rw [hsize]
  omega

theorem hhdmMakeReadonly_builds (h : Rooted k p roles s) (start : Nat)
    (hstop : stop ≤ pdptSpanLimit)
    (hplan : ∀ addr, pagingAlignDown start pageSize ≤ addr → addr < stop →
      p.tables (.hhdmPd (addr / 2 ^ 30)) ∧
        p.tables (.hhdmPt (addr / 2 ^ 30) (addr / 2 ^ 21 % 512))) :
    Builds k p roles s (hhdmMakeReadonly k start stop) (fun _ roles' s' => ∀ i j l, j < 512 →
      l < 512 → pagingAlignDown start pageSize ≤ regionPage i j l → regionPage i j l < stop →
        Readonly k roles' s' i j l) := by
  have hspan : pdptSpanLimit = 0x8000000000 := rfl
  have hsize : pageSize = 4096 := rfl
  have halign : pagingAlignDown start pageSize % pageSize = 0 := Nat.mul_mod_left _ _
  unfold hhdmMakeReadonly
  refine Builds.mono (addrLoop_builds (P := fun addr roles s =>
      Readonly k roles s (addr / 2 ^ 30) (addr / 2 ^ 21 % 512) (addr / 2 ^ 12 % 512)) (by omega)
    (fun _ _ _ _ _ hext hreadonly => hreadonly.extends hext)
    (fun addr roles s hlo hlt haddr hrooted => protectPage_builds hrooted (by omega) haddr
      (hplan addr hlo hlt).1 (hplan addr hlo hlt).2) _ (le_refl _) halign h) ?_
  intro _ roles' s' _ hreadonly i j l hj hl hlo hhi
  have hpage : regionPage i j l % pageSize = 0 := by
    unfold regionPage regionBase
    rw [hsize]
    omega
  obtain ⟨m, hm, heq⟩ := exists_step (by rw [hsize]; omega) hlo hhi halign hpage
  have hdone := hreadonly m hm (by rw [heq]; exact hhi)
  obtain ⟨hindex, hindex'⟩ := regionPage_index i hj hl
  rw [heq, regionPage_div i hj hl, hindex, hindex'] at hdone
  exact hdone

/-! ## The image -/

/-- A page of the image that may be mapped with some flags. -/
structure ImagePage (k : Platform) (flags virt : Nat) : Prop where
  aligned : virt % pageSize = 0
  lower : kernelVmaBase ≤ virt
  upper : virt < kernelVmaBase + 2 ^ 30
  entry : ImageEntry k (virt - kernelVmaBase) ((virt - kernelVmaBase) ||| flags ||| pagePresent)

theorem mapKernelPage_builds (h : Rooted k p roles s) {virt flags : Nat}
    (hpage : ImagePage k flags virt) (hplan : p.tables (.kernelPt ((virt - kernelVmaBase) / 2 ^ 21))) :
    Builds k p roles s (mapKernelPage k virt flags) (fun _ _ _ => True) := by
  have hsize : pageSize = 4096 := rfl
  have hvma : kernelVmaBase = 0xFFFFFFFF80000000 := rfl
  have haligned := hpage.aligned
  have hlower := hpage.lower
  have hupper := hpage.upper
  unfold mapKernelPage
  refine Builds.gets ?_
  rw [h.pdKernel, index_eq, index_eq]
  obtain ⟨j, hj⟩ : ∃ j, j = (virt - kernelVmaBase) / 2 ^ 21 := ⟨_, rfl⟩
  obtain ⟨l, hl⟩ : ∃ l, l = virt / 2 ^ 12 % 512 := ⟨_, rfl⟩
  have hindex : (virt - kernelVmaBase) / 2 ^ 21 % 512 = j := by omega
  have hplace : virt - kernelVmaBase = imagePage j l := by
    unfold imagePage
    rw [hsize] at haligned ⊢
    omega
  rw [← hj] at hplan
  rw [hindex, ← hl]
  refine Builds.bind (linkedTable_builds h h.image (fun _ _ => Iff.rfl)
    (fun _ => Or.inl rfl) (fun _ _ => Or.inl rfl) (fun _ _ _ _ hlink => hlink) hplan)
    (fun t roles₁ s₁ h₁ hext₁ ht => ?_)
  cases t with
  | none => exact Builds.fail h₁ (Or.inl ht)
  | some pt =>
      obtain ⟨m, hm, rfl⟩ := ht
      have hentry := hpage.entry
      obtain ⟨hstored, hext⟩ := h₁.tables.store hm (i := l)
        (e := (virt - kernelVmaBase) ||| flags ||| pagePresent)
        (Or.inr (by rw [hplace] at hentry ⊢; exact hentry)) trivial
      exact Builds.modify (h₁.step_same hstored hext) hext trivial

theorem mapSection_builds {flags first : Nat} {guard : Option Nat} (h : Rooted k p roles s)
    (hstop : stop + pageSize ≤ 2 ^ 64) (hfirst : first % pageSize = 0)
    (hpages : ∀ v, first ≤ v → v < stop → v % pageSize = 0 → ImagePage k flags v)
    (hplan : ∀ v, first ≤ v → v < stop → p.tables (.kernelPt ((v - kernelVmaBase) / 2 ^ 21))) :
    Builds k p roles s (mapSection k flags guard first stop) (fun _ _ _ => True) := by
  unfold mapSection
  refine Builds.mono (addrLoop_builds (P := fun _ _ _ => True) hstop
    (fun _ _ _ _ _ _ _ => trivial) (fun v roles s hlo hhi hv hrooted => ?_) _ (le_refl first)
    hfirst h) (fun _ _ _ _ _ => trivial)
  split
  next => exact Builds.pure hrooted trivial
  next => exact mapKernelPage_builds hrooted (hpages v hlo hhi hv) (hplan v hlo hhi)

/-- The symbols of the linker: sections of whole pages, one behind the other, in the first GiB
above the base of the kernel. -/
structure Platform.Linked (k : Platform) : Prop where
  pool : k.PoolOk
  text_aligned : k.textStart % pageSize = 0
  rodata_aligned : k.rodataStart % pageSize = 0
  data_aligned : k.dataStart % pageSize = 0
  kernelEnd_aligned : k.kernelEnd % pageSize = 0
  boot_text : kernelVmaBase + k.bootStart ≤ k.textStart
  text_rodata : k.textEnd ≤ k.rodataStart
  rodata_data : k.rodataEnd ≤ k.dataStart
  text : k.textStart ≤ k.textEnd
  rodata : k.rodataStart ≤ k.rodataEnd
  data : k.dataStart ≤ k.kernelEnd
  kernelEnd : k.kernelEnd ≤ kernelVmaBase + 2 ^ 30

theorem Platform.Linked.alignUp_kernelEnd (h : k.Linked) :
    pagingAlignUp k.kernelEnd pageSize = k.kernelEnd := by
  have hvma : kernelVmaBase = 0xFFFFFFFF80000000 := rfl
  have hsize : pageSize = 4096 := rfl
  have haligned := h.kernelEnd_aligned
  have hend := h.kernelEnd
  unfold pagingAlignUp
  rw [hsize] at haligned ⊢
  omega

theorem Platform.Linked.alignUp_size (h : k.Linked) :
    pagingAlignUp (k.kernelEnd - kernelVmaBase) pageSize = k.kernelEnd - kernelVmaBase := by
  have hvma : kernelVmaBase = 0xFFFFFFFF80000000 := rfl
  have hsize : pageSize = 4096 := rfl
  have haligned := h.kernelEnd_aligned
  have hend := h.kernelEnd
  unfold pagingAlignUp
  rw [hsize] at haligned ⊢
  omega

theorem mapKernelImage_builds (hlink : k.Linked) (h : Rooted k p roles s)
    (hplan : ∀ v, kernelVmaBase ≤ v → v < k.kernelEnd →
      p.tables (.kernelPt ((v - kernelVmaBase) / 2 ^ 21))) :
    Builds k p roles s (mapKernelImage k) (fun _ _ _ => True) := by
  have hsize : pageSize = 4096 := rfl
  have hvma : kernelVmaBase = 0xFFFFFFFF80000000 := rfl
  have hboot := hlink.boot_text
  have htext := hlink.text
  have htext' := hlink.text_rodata
  have hrodata := hlink.rodata
  have hrodata' := hlink.rodata_data
  have hdata := hlink.data
  have hend := hlink.kernelEnd
  have hround := hlink.alignUp_kernelEnd
  have himage : ∀ {flags first last : Nat}, kernelVmaBase ≤ first → last ≤ k.kernelEnd →
      (∀ p, InSection first last p → ImageEntry k p (p ||| flags ||| pagePresent)) →
      ∀ v, first ≤ v → v < last → v % pageSize = 0 → ImagePage k flags v := by
    intro flags first last hfirst hlast hentry v hlo hhi hv
    exact ⟨hv, by omega, by omega, hentry _ ⟨by omega, by omega⟩⟩
  unfold mapKernelImage
  refine Builds.gets ?_
  rw [h.tables.nx]
  refine Builds.bind (mapSection_builds h (by omega) hlink.text_aligned
    (himage (by omega) (by omega) (fun p hp => .text hp))
    (fun v hlo hhi => hplan v (by omega) (by omega))) (fun _ roles₁ s₁ h₁ hext₁ _ => ?_)
  refine Builds.bind (mapSection_builds h₁ (by omega) hlink.rodata_aligned
    (himage (by omega) (by omega) (fun p hp => .rodata hp))
    (fun v hlo hhi => hplan v (by omega) (by omega))) (fun _ roles₂ s₂ h₂ hext₂ _ => ?_)
  exact mapSection_builds h₂ (by omega) hlink.data_aligned
    (himage (by omega) (by omega) (fun p hp => .data hp))
    (fun v hlo hhi => hplan v (by omega) (by omega))

/-! ## The whole initialisation -/

theorem allocTable_fresh (h : Tables k roles s) (hroom : roles.length < pagingPoolPages)
    (role : Role) (hzero : ∀ i, EntryOk k (roles ++ [role]) role i 0) :
    allocTable k s = (.ok (some (k.table roles.length)), s.fresh k (fun _ => 0)) ∧
      Tables k (roles ++ [role]) (s.fresh k (fun _ => 0)) := by
  refine ⟨?_, (h.append hroom role hzero).1⟩
  rw [allocTable_run (by rw [h.used]; exact hroom), h.used]

theorem initTables_run (hpool : k.PoolOk) (hplan : ∀ role ∈ rootRoles, p.tables role) (s : Pager) :
    ∃ s', initTables k s = (.ok (), s') ∧ Rooted k p rootRoles s' := by
  obtain ⟨s₀, hs₀⟩ : ∃ s₀ : Pager, s₀ = { s with
    memory := { s.memory with nxSupported := k.cpuNx }
    poolUsed := 0 } := ⟨_, rfl⟩
  have h₀ : Tables k [] s₀ := by
    rw [hs₀]
    exact ⟨hpool, rfl, Nat.zero_le _, rfl, nofun⟩
  obtain ⟨hrun₁, h₁⟩ := allocTable_fresh h₀ (by decide) .pml4 (fun _ => Or.inl rfl)
  obtain ⟨hrun₂, h₂⟩ := allocTable_fresh h₁ (by decide) .hhdmPdpt (fun _ => Or.inl rfl)
  obtain ⟨hrun₃, h₃⟩ := allocTable_fresh h₂ (by decide) .kernelPdpt (fun _ => Or.inl rfl)
  obtain ⟨hrun₄, h₄⟩ := allocTable_fresh h₃ (by decide) .kernelPd (fun _ => Or.inl rfl)
  obtain ⟨s₄, hs₄⟩ : ∃ s₄, s₄ = (((s₀.fresh k (fun _ => 0)).fresh k (fun _ => 0)).fresh k
    (fun _ => 0)).fresh k (fun _ => 0) := ⟨_, rfl⟩
  rw [← hs₄] at hrun₄ h₄
  obtain ⟨s₅, hs₅⟩ : ∃ s₅ : Pager, s₅ = { s₄ with
    memory := { s₄.memory with kernelPml4 := k.table 0 }
    pdptHhdm := k.table 1
    pdKernel := k.table 3 } := ⟨_, rfl⟩
  have h₅ : Tables k rootRoles s₅ := by
    rw [hs₅]
    exact ⟨hpool, h₄.used, h₄.room, h₄.nx, h₄.entries⟩
  have h₆ := h₅.put (n := 0) rfl (i := hhdmPml4Index)
    (e := linkEntry (k.table 1)) (Or.inr (Or.inl ⟨rfl, 1, rfl, rfl⟩))
  have h₇ := h₆.put (n := 0) rfl (i := kernelPml4Index)
    (e := linkEntry (k.table 2)) (Or.inr (Or.inr ⟨rfl, 2, rfl, rfl⟩))
  have h₈ := h₇.put (n := 2) rfl (i := kernelPdptIndex)
    (e := linkEntry (k.table 3)) (Or.inr ⟨rfl, 3, rfl, rfl⟩)
  refine ⟨_, ?_, ⟨h₈, List.prefix_refl _, ?_, ?_, ?_, ?_, fun n role hn => ?_, fun n role hn => ?_⟩⟩
  · have hrun₀ : (Eff.modify (fun s : Pager => { s with
        memory := { s.memory with nxSupported := k.cpuNx }
        poolUsed := 0 }) : PagerM Unit) s = (.ok (), s₀) := by
      rw [hs₀]
      rfl
    unfold initTables
    rw [Eff.bind_ok hrun₀, Eff.bind_ok hrun₁, Eff.bind_ok hrun₂, Eff.bind_ok hrun₃,
      Eff.bind_ok hrun₄]
    simp only [List.nil_append, List.cons_append, List.length_nil, List.length_cons, hs₅]
    rfl
  · simp only [Pager.store_kernelPml4, hs₅]
  · simp only [Pager.store_pdptHhdm, hs₅]
  · simp only [Pager.store_pdKernel, hs₅]
  · rw [hpool.store_mem, if_neg (by decide), hpool.store_mem, if_neg (by decide),
      hpool.store_mem, if_pos ⟨rfl, rfl⟩]
  · have hlt : n < 4 := (List.getElem?_eq_some_iff.mp hn).1
    have hcases : n = 0 ∨ n = 1 ∨ n = 2 ∨ n = 3 := by omega
    rcases hcases with rfl | rfl | rfl | rfl
    · rw [← Option.some.inj hn]
      exact rfl
    · rw [← Option.some.inj hn]
      exact rfl
    · rw [← Option.some.inj hn]
      exact rfl
    · rw [← Option.some.inj hn]
      exact rfl
  · exact hplan role (List.mem_of_getElem? hn)

/-- The limit of the direct map stands in no table. -/
theorem Rooted.withLimit (h : Rooted k p roles s) (limit : Nat) :
    Rooted k p roles { s with hhdmLimit := limit } := by
  obtain ⟨pool, used, room, nx, entries⟩ := h.tables
  refine ⟨⟨pool, used, room, nx, entries⟩, h.root, h.pml4, h.pdptHhdm, h.pdKernel, h.link,
    fun n role hn => ?_, h.planned⟩
  have howned := h.owned n role hn
  cases role <;> exact howned

/-- A plan allows for everything that the initialisation may need. -/
structure Plan.Suits (p : Plan) (k : Platform) (info : PagingInfo) : Prop where
  root : ∀ role ∈ rootRoles, p.tables role
  direct : ∀ addr < limitFor info.memmap, p.tables (.hhdmPd (addr / 2 ^ 30))
  framebuffer : limitFor info.memmap < (info.framebufferBase + info.framebufferSize) % 2 ^ 64 →
    ∀ addr, p.tables (.hhdmPd (addr / 2 ^ 30))
  refuses : limitFor info.memmap < (info.framebufferBase + info.framebufferSize) % 2 ^ 64 → p.refuses
  split : ∀ addr < k.kernelEnd - kernelVmaBase,
    p.tables (.hhdmPt (addr / 2 ^ 30) (addr / 2 ^ 21 % 512))
  image : ∀ v, kernelVmaBase ≤ v → v < k.kernelEnd →
    p.tables (.kernelPt ((v - kernelVmaBase) / 2 ^ 21))

/-- What {lit}`paging_init` has built. -/
structure Built (k : Platform) (p : Plan) (info : PagingInfo) (roles : List Role) (s : Pager) :
    Prop where
  rooted : Rooted k p roles s
  limit : s.hhdmLimit = limitFor info.memmap
  covered : ∀ i j, j < 512 → regionBase i j < limitFor info.memmap → Covered k roles s i j
  readonly : ∀ i j l, j < 512 → l < 512 → pagingAlignDown k.bootStart pageSize ≤ regionPage i j l →
    regionPage i j l < k.kernelEnd - kernelVmaBase → Readonly k roles s i j l

/-- The direct map reaches 4 GiB at least and 64 GiB at most. -/
theorem limitFor_bounds (memmap : List Boot.MemDesc) :
    hhdmMinLimit ≤ limitFor memmap ∧ limitFor memmap ≤ hhdmMaxLimit := by
  have hmin : hhdmMinLimit = 0x100000000 := rfl
  have hmax : hhdmMaxLimit = 0x1000000000 := rfl
  have hsize : pageSize2m = 0x200000 := rfl
  have hgrow : ∀ (l : List Boot.MemDesc) (limit : Nat), limit ≤ l.foldl widenLimit limit := by
    intro l
    induction l with
    | nil => exact fun limit => le_refl limit
    | cons d l ih =>
        intro limit
        refine le_trans ?_ (ih (widenLimit limit d))
        unfold widenLimit
        dsimp only
        split_ifs <;> omega
  have hlower := hgrow memmap hhdmMinLimit
  unfold limitFor pagingAlignUp
  dsimp only
  rw [hsize]
  split_ifs <;> omega

theorem mapFramebuffer_builds (h : Rooted k p roles s) {info : PagingInfo} (hplan : p.Suits k info) :
    Builds k p roles s (mapFramebuffer k info (limitFor info.memmap)) (fun _ _ _ => True) := by
  unfold mapFramebuffer
  dsimp only
  split
  next hfar =>
    refine Builds.mono (mapHhdm2m_builds h _ (fun addr _ _ => hplan.framebuffer hfar.2.2.2 addr)
      (fun _ => hplan.refuses hfar.2.2.2)) (fun _ _ _ _ _ => trivial)
  next => exact Builds.pure h trivial

/-- The initialisation builds what it should, or runs out of tables, or refuses a framebuffer. -/
theorem pagingInit_built (hlink : k.Linked) {info : PagingInfo} (hplan : p.Suits k info)
    (s : Pager) :
    Eff.Post (pagingInit k (some info)) s (fun r s' => ∃ roles, Rooted k p roles s' ∧
      match r with
      | .ok _ => Built k p info roles s'
      | .error _ => pagingPoolPages ≤ roles.length ∨ p.refuses) := by
  have hsize : pageSize = 4096 := rfl
  have hspan : pdptSpanLimit = 0x8000000000 := rfl
  have hmin : hhdmMinLimit = 0x100000000 := rfl
  have hmax : hhdmMaxLimit = 0x1000000000 := rfl
  have hend := hlink.kernelEnd
  obtain ⟨hlower, hupper⟩ := limitFor_bounds info.memmap
  obtain ⟨s₁, hrun, h₁⟩ := initTables_run hlink.pool hplan.root s
  obtain ⟨s₂, hs₂⟩ : ∃ s₂ : Pager, s₂ = { s₁ with hhdmLimit := limitFor info.memmap } := ⟨_, rfl⟩
  have h₂ : Rooted k p rootRoles s₂ := by
    rw [hs₂]
    exact h₁.withLimit _
  have hrest : Builds k p rootRoles s₂ (do
      mapHhdm2m k 0 (limitFor info.memmap)
      mapFramebuffer k info (limitFor info.memmap)
      hhdmMakeReadonly k k.bootStart (pagingAlignUp (k.kernelEnd - kernelVmaBase) pageSize)
      mapKernelImage k) (fun _ roles s' =>
        (∀ i j, j < 512 → regionBase i j < limitFor info.memmap → Covered k roles s' i j) ∧
        ∀ i j l, j < 512 → l < 512 → pagingAlignDown k.bootStart pageSize ≤ regionPage i j l →
          regionPage i j l < k.kernelEnd - kernelVmaBase → Readonly k roles s' i j l) := by
    refine Builds.bind (mapHhdm2m_builds h₂ 0 (fun addr _ hlt => hplan.direct addr hlt)
      (fun hbig => absurd hbig (by omega))) (fun _ roles₃ s₃ h₃ hext₃ hcovered => ?_)
    refine Builds.bind (mapFramebuffer_builds h₃ hplan) (fun _ roles₄ s₄ h₄ hext₄ _ => ?_)
    rw [hlink.alignUp_size]
    refine Builds.bind (hhdmMakeReadonly_builds h₄ k.bootStart (by omega)
      (fun addr _ hlt => ⟨hplan.direct addr (by omega), hplan.split addr hlt⟩))
      (fun _ roles₅ s₅ h₅ hext₅ hreadonly => ?_)
    refine Builds.mono (mapKernelImage_builds hlink h₅ hplan.image) ?_
    intro _ roles₆ s₆ hext₆ _
    refine ⟨fun i j hj hlt => ?_, fun i j l hj hl hlo hhi => ?_⟩
    · have hstart : pagingAlignDown 0 pageSize2m ≤ regionBase i j := by
        unfold pagingAlignDown
        rw [Nat.zero_div, Nat.zero_mul]
        exact Nat.zero_le _
      exact (((hcovered i j hj hstart hlt).extends hext₄).extends hext₅).extends hext₆
    · exact (hreadonly i j l hj hl hlo hhi).extends hext₆
  unfold pagingInit
  refine Eff.post_bind_ok hrun ?_
  dsimp only
  have hlimit : (Eff.modify (fun s : Pager => { s with hhdmLimit := limitFor info.memmap }) :
      PagerM Unit) s₁ = (.ok (), s₂) := by
    rw [hs₂]
    rfl
  refine Eff.post_bind_ok hlimit ?_
  refine Eff.post_mono hrest (fun r s' hr => ?_)
  obtain ⟨roles, hrooted, hext, hr⟩ := hr
  refine ⟨roles, hrooted, ?_⟩
  cases r with
  | ok u => exact ⟨hrooted, by rw [hext.limit, hs₂], hr.1, hr.2⟩
  | error e => exact hr

/-- The tables that have been taken are those of a list, each of them once. -/
theorem Rooted.length_le (h : Rooted k p roles s) {allowed : List Role}
    (hplan : ∀ role, p.tables role → role ∈ allowed) : roles.length ≤ allowed.length := by
  have hnodup : roles.Nodup := by
    rw [List.nodup_iff_getElem?_ne_getElem?]
    intro n m hlt hm heq
    obtain ⟨role, hrole⟩ : ∃ role, roles[m]? = some role := ⟨_, List.getElem?_eq_getElem hm⟩
    have := h.role_inj (heq.trans hrole) hrole
    omega
  refine (List.subperm_of_subset hnodup (fun role hrole => ?_)).length_le
  obtain ⟨n, hn⟩ := List.mem_iff_getElem?.mp hrole
  exact hplan role (h.planned n role hn)

end Mm
end Nyxis
