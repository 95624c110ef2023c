import Nyxis.Nyfs.Failures
import Nyxis.Nyfs.Permissions

/-!
# Host paths

{lit}`nyfs_path_lookup` and {lit}`nyfs_path_lookup_parent`, by which the host tools turn a path
into an inode number.  The kernel resolves paths in the virtual file system instead.  A C string is
the list of its bytes before the terminating zero.

The volume may hold any bytes, so a directory's entries are described by the records on the chains
of its hash table.

Main results:

- Theorem {lit}`pathLookup_eq_ok`: a lookup follows the components, cut at the length of its buffer,
  through directories that may be searched.
- Theorem {lit}`host_lookup_exact_iff`: when it follows the whole components.
- Theorem {lit}`parent_lookup_searchable_iff`: when the lookup of a parent has checked every
  directory.
-/

namespace Nyxis
namespace Nyfs

open Vfs (slash skipSlashes)

variable {D : Type} [ReliableDevice D] {v : Volume D} {i j k : Nat} {cred : Cred}

/-! ## The lookups -/

/-- {lit}`nyfs_next_component`: the next component, cut to what the buffer holds, and the path behind
it. -/
def nextComponent (path : List UInt8) (compMax : Nat) : List UInt8 × List UInt8 :=
  let source := skipSlashes path
  if source = [] then
    ([], source)
  else
    ((source.takeWhile (fun b => b ≠ slash)).take (compMax - 1),
      skipSlashes (source.dropWhile (fun b => b ≠ slash)))

/-- The loop of {lit}`nyfs_path_lookup`. -/
def pathLookupLoop (cred : Cred) : (fuel : Nat) → (path : List UInt8) → (curIno : Nat) → NyfsM D Nat
  | 0, _, _ => Eff.fail .hang
  | fuel + 1, path, curIno => do
      let (comp, rest) := nextComponent path (nyfsNameMax + 1)
      if comp = [] then
        pure curIno
      else
        let cur ← readDirInode curIno
        checkAccess cur cred nyfsAceExecute
        let (childIno, _) ← dirhashLookup cur comp
        pathLookupLoop cred fuel rest childIno

/-- {lit}`nyfs_path_lookup`. -/
def pathLookup (path : List UInt8) (cred : Cred) : NyfsM D Nat :=
  pathLookupLoop cred (path.length + 1) path nyfsRootIno

/-- The scan of {lit}`nyfs_path_lookup_parent` for the last slash, from an index on. -/
def lastSlash : (index : Nat) → List UInt8 → (found : Option Nat) → Option Nat
  | _, [], found => found
  | index, c :: cs, found => lastSlash (index + 1) cs (if c = slash then some index else found)

/-- The directory part and the name of a path without slashes in front. -/
def splitParent (path : List UInt8) : List UInt8 × List UInt8 :=
  match lastSlash 0 path none with
  | none => ([], path)
  | some last => (path.take last, path.drop (last + 1))

/-- The size of {lit}`dirbuf`. -/
def dirbufSize : Nat := 4096

/-- {lit}`nyfs_path_lookup_parent`: the inode number of the parent and the name in it. -/
def pathLookupParent (path : List UInt8) (cred : Cred) (nameMax : Nat) :
    NyfsM D (Nat × List UInt8) := do
  let path := skipSlashes path
  if path = [] then
    failWith .NinvalidArg
  else
    let (dir, name) := splitParent path
    if dirbufSize ≤ dir.length then
      failWith .NnameTooLong
    else if name.length = 0 ∨ nyfsNameMax < name.length then
      failWith .NinvalidArg
    else if nameMax ≤ name.length then
      failWith .NnameTooLong
    else if dir.length = 0 then
      let root ← readInode nyfsRootIno
      checkAccess root cred nyfsAceExecute
      pure (nyfsRootIno, name)
    else
      let parent ← pathLookup dir cred
      pure (parent, name)

/-! ## Calls that only read -/

theorem reads_rawRead (offset size : Nat) : Eff.Reads (rawRead offset size : NyfsM D _) :=
  fun v => by rw [rawRead_eq]

theorem reads_readInode (ino : Nat) : Eff.Reads (readInode ino : NyfsM D _) := by
  refine (Eff.reads_gets _).bind (fun count => Eff.reads_ite (reads_failWith _) ?_)
  refine (Eff.reads_gets _).bind (fun offset => (reads_rawRead _ _).bind (fun bytes => ?_))
  exact Eff.reads_ite (reads_failWith _) (Eff.reads_ite (reads_failWith _) (Eff.reads_pure _))

theorem reads_readDirInode (ino : Nat) : Eff.Reads (readDirInode ino : NyfsM D _) :=
  (reads_readInode ino).bind (fun _ => Eff.reads_ite (reads_failWith _) (Eff.reads_pure _))

theorem reads_checkAccess (x : Inode) (cred : Cred) (mask : Nat) :
    Eff.Reads (checkAccess x cred mask : NyfsM D _) := by
  refine Eff.reads_ite (Eff.reads_pure _) (Eff.reads_ite ?_ ?_)
  · exact Eff.reads_ite (Eff.reads_pure _) (reads_failWith _)
  · refine Eff.Reads.bind (fun v => ?_) (fun aces => Eff.reads_ite (Eff.reads_pure _) (reads_failWith _))
    rw [gatherAces_eq]

theorem reads_extentHeader (cur : Nat) : Eff.Reads (extentHeader cur : NyfsM D _) :=
  (Eff.reads_gets _).bind (fun _ => (reads_rawRead _ _).bind (fun _ =>
    Eff.reads_ite (reads_failWith _) (Eff.reads_pure _)))

theorem reads_readExtents (cur count : Nat) : Eff.Reads (readExtents cur count : NyfsM D _) :=
  Eff.reads_ite (Eff.reads_pure _) ((Eff.reads_gets _).bind (fun _ => (reads_rawRead _ _).bind (fun _ =>
    Eff.reads_pure _)))

theorem reads_extentResolve (root logicalBlock : Nat) :
    Eff.Reads (extentResolve root logicalBlock : NyfsM D _) := by
  have hloop : ∀ fuel cur base,
      Eff.Reads (extentResolveLoop logicalBlock fuel cur base : NyfsM D _) := by
    intro fuel
    induction fuel with
    | zero => exact fun _ _ => Eff.reads_fail _
    | succ fuel ih =>
        intro cur base
        refine Eff.reads_ite (reads_failWith _) ((reads_extentHeader cur).bind (fun hdr => ?_))
        refine (reads_readExtents cur _).bind (fun extents => ?_)
        split
        next => exact Eff.reads_pure _
        next => exact ih _ _
  exact hloop _ _ _

theorem reads_extentReadAt (root offset size : Nat) :
    Eff.Reads (extentReadAt root offset size : NyfsM D _) := by
  have hloop : ∀ rounds offset size,
      Eff.Reads (extentReadLoop root rounds offset size : NyfsM D _) := by
    intro rounds
    induction rounds with
    | zero => exact fun _ _ => Eff.reads_pure _
    | succ rounds ih =>
        intro offset size
        refine Eff.reads_ite (Eff.reads_pure _) ((Eff.reads_gets _).bind (fun bs => ?_))
        refine (reads_attemptStatus (reads_extentResolve root _)).bind (fun r => ?_)
        split
        next => exact Eff.reads_pure _
        next => exact reads_failWith _
        next =>
          exact (reads_rawRead _ _).bind (fun _ => (ih _ _).bind (fun _ => Eff.reads_pure _))
  exact hloop _ _ _

theorem reads_dirhashHeader (root : Nat) : Eff.Reads (dirhashHeader root : NyfsM D _) :=
  (reads_extentReadAt _ _ _).bind (fun _ => Eff.reads_ite (reads_failWith _) (Eff.reads_pure _))

theorem reads_bucketHead (root b : Nat) : Eff.Reads (bucketHead root b : NyfsM D _) :=
  (reads_extentReadAt _ _ _).bind (fun _ => Eff.reads_pure _)

theorem reads_dirhashSlot (root : Nat) (name : List UInt8) :
    Eff.Reads (dirhashSlot root name : NyfsM D _) :=
  (reads_dirhashHeader root).bind (fun _ => (reads_bucketHead root _).bind (fun _ =>
    Eff.reads_pure _))

theorem reads_readDirent (root cur : Nat) : Eff.Reads (readDirent root cur : NyfsM D _) :=
  (reads_extentReadAt _ _ _).bind (fun _ => Eff.reads_ite (reads_failWith _) (Eff.reads_pure _))

theorem reads_nameMatches (root hash : Nat) (name : List UInt8) (cur : Nat) (de : Dirent) :
    Eff.Reads (nameMatches root hash name cur de : NyfsM D _) :=
  Eff.reads_ite ((reads_extentReadAt _ _ _).bind (fun _ => Eff.reads_pure _)) (Eff.reads_pure _)

theorem reads_dirhashFind (root hash : Nat) (name : List UInt8) (fuel prevOffset cur : Nat) :
    Eff.Reads (dirhashFind root hash name fuel prevOffset cur : NyfsM D _) := by
  induction fuel generalizing prevOffset cur with
  | zero => exact Eff.reads_fail _
  | succ fuel ih =>
      refine Eff.reads_ite (reads_failWith _) ((reads_readDirent root cur).bind (fun de => ?_))
      refine (reads_nameMatches root hash name cur de).bind (fun found => ?_)
      exact Eff.reads_ite (Eff.reads_pure _) (ih _ _)

theorem reads_dirhashLookup (dir : Inode) (name : List UInt8) :
    Eff.Reads (dirhashLookup dir name : NyfsM D _) :=
  Eff.reads_ite (reads_failWith _) (Eff.reads_ite (reads_failWith _) ((reads_dirhashSlot _ _).bind (fun _ =>
    (reads_dirhashFind _ _ _ _ _ _).bind (fun _ => Eff.reads_pure _))))

theorem reads_lookupName (dir : Nat) (name : List UInt8) :
    Eff.Reads (lookupName dir name : NyfsM D _) :=
  (reads_readDirInode dir).bind (fun _ => reads_dirhashLookup _ _)

/-! ## Components -/

/-- The components of a path: what stands between runs of slashes. -/
def components (path : List UInt8) : List (List UInt8) :=
  (path.splitOn slash).filter (fun name => name ≠ [])

theorem components_slash (path : List UInt8) : components (slash :: path) = components path := by
  have hsplit : (slash :: path).splitOn slash = [] :: path.splitOn slash := by
    rw [List.splitOn_eq_splitOnP, List.splitOn_eq_splitOnP]
    exact List.splitOnP_append_cons_of_forall_mem (p := (· == slash))
      (List.forall_mem_nil (fun x => (x == slash) = false)) slash (beq_self_eq_true slash) path
  rw [components, hsplit]
  rfl

theorem components_skipSlashes (path : List UInt8) :
    components (skipSlashes path) = components path := by
  induction path with
  | nil => rfl
  | cons c path ih =>
      by_cases hc : c = slash
      · subst hc
        rw [components_slash, ← ih]
        rfl
      · rw [skipSlashes, List.dropWhile_cons_of_neg (by simpa using hc)]

theorem not_beq_of_not_mem {name : List UInt8} (h : slash ∉ name) :
    ∀ c ∈ name, (c == slash) = false := by
  intro c hc
  rw [beq_eq_false_iff_ne]
  rintro rfl
  exact h hc

/-- A name in front of a slash is the first component. -/
theorem components_append {name : List UInt8} (hname : name ≠ []) (hslash : slash ∉ name)
    (rest : List UInt8) : components (name ++ slash :: rest) = name :: components rest := by
  rw [components, List.splitOn_eq_splitOnP, List.splitOnP_append_cons_of_forall_mem (not_beq_of_not_mem hslash)
    slash (beq_self_eq_true slash), List.filter_cons_of_pos (by simpa using hname)]
  rfl

/-- A name without a slash is the only component. -/
theorem components_name {name : List UInt8} (hname : name ≠ []) (hslash : slash ∉ name) :
    components name = [name] := by
  rw [components, List.splitOn_eq_splitOnP, List.splitOnP_eq_singleton (not_beq_of_not_mem hslash),
    List.filter_cons_of_pos (by simpa using hname)]
  rfl

/-- What is left of a path at the first slash. -/
theorem dropWhile_cases (source : List UInt8) :
    source.dropWhile (fun b => b ≠ slash) = [] ∨
      ∃ rest, source.dropWhile (fun b => b ≠ slash) = slash :: rest := by
  have hhead := List.head?_dropWhile_not (fun b => decide (b ≠ slash)) source
  cases hrest : source.dropWhile (fun b => b ≠ slash) with
  | nil => exact Or.inl rfl
  | cons c rest =>
      rw [hrest] at hhead
      have hc : c = slash := by
        simpa using hhead
      rw [hc]
      exact Or.inr ⟨rest, rfl⟩

/-- A path is empty or starts with another byte than a slash when the slashes are skipped. -/
theorem takeWhile_skipSlashes_ne {path : List UInt8} (h : skipSlashes path ≠ []) :
    (skipSlashes path).takeWhile (fun b => b ≠ slash) ≠ [] := by
  have hhead := List.head?_dropWhile_not (fun b => decide (b = slash)) path
  rw [← skipSlashes] at hhead
  obtain ⟨c, rest, hcons⟩ := List.exists_cons_of_ne_nil h
  rw [hcons] at hhead ⊢
  have hc : c ≠ slash := by
    simpa using hhead
  rw [List.takeWhile_cons_of_pos (by simpa using hc)]
  exact List.cons_ne_nil _ _

/-- The first component of a path, and the components of the path behind it. -/
theorem components_eq_cons {path : List UInt8} (h : skipSlashes path ≠ []) :
    components path = (skipSlashes path).takeWhile (fun b => b ≠ slash) ::
      components (skipSlashes ((skipSlashes path).dropWhile (fun b => b ≠ slash))) := by
  have hne := takeWhile_skipSlashes_ne h
  have hmem : slash ∉ (skipSlashes path).takeWhile (fun b => b ≠ slash) := by
    intro hmem
    have hall := List.all_eq_true.mp (List.all_takeWhile (p := fun b => decide (b ≠ slash))
      (l := skipSlashes path)) slash hmem
    simp at hall
  have hsplit := List.takeWhile_append_dropWhile (p := fun b => decide (b ≠ slash))
    (l := skipSlashes path)
  rw [← components_skipSlashes path, components_skipSlashes (List.dropWhile _ _)]
  generalize (skipSlashes path).takeWhile (fun b => decide (b ≠ slash)) = name at hne hmem hsplit ⊢
  rcases dropWhile_cases (skipSlashes path) with hrest | ⟨rest, hrest⟩
  · rw [hrest] at hsplit ⊢
    rw [← hsplit, List.append_nil, components_name hne hmem]
    rfl
  · rw [hrest] at hsplit ⊢
    rw [← hsplit, components_append hne hmem, components_slash]

/-! ## Following a path -/

/-- The credential may search the inode. -/
def MaySearch (v : Volume D) (cred : Cred) (i : Nat) : Prop :=
  ∃ x, (readInode i v).1 = .ok x ∧ (checkAccess x cred nyfsAceExecute v).1 = .ok ()

/-- From the first inode the lookups of the names lead to the last one, each in an inode that may be
searched. -/
inductive Walks (v : Volume D) (cred : Cred) : Nat → List (List UInt8) → Nat → Prop
  | nil (i : Nat) : Walks v cred i [] i
  | cons {i j k type : Nat} {name : List UInt8} {names : List (List UInt8)}
      (hsearch : MaySearch v cred i) (hlookup : (lookupName i name v).1 = .ok (j, type))
      (hrest : Walks v cred j names k) : Walks v cred i (name :: names) k

theorem walks_nil : Walks v cred i [] k ↔ i = k := by
  constructor
  · rintro ⟨⟩
    rfl
  · rintro rfl
    exact Walks.nil i

theorem walks_cons {name : List UInt8} {names : List (List UInt8)} :
    Walks v cred i (name :: names) k ↔ MaySearch v cred i ∧
      ∃ j type, (lookupName i name v).1 = .ok (j, type) ∧ Walks v cred j names k := by
  constructor
  · rintro (_ | ⟨hsearch, hlookup, hrest⟩)
    exact ⟨hsearch, _, _, hlookup, hrest⟩
  · rintro ⟨hsearch, j, type, hlookup, hrest⟩
    exact Walks.cons hsearch hlookup hrest

theorem readDirInode_eq_ok {x : Inode} :
    (readDirInode i v).1 = .ok x ↔ (readInode i v).1 = .ok x ∧ x.type = nyfsInoTypeDir := by
  rw [readDirInode, (reads_readInode i).bind_eq_ok]
  constructor
  · rintro ⟨y, hy, hx⟩
    split at hx
    next => cases hx
    next htype =>
      cases hx
      exact ⟨hy, not_not.mp htype⟩
  · rintro ⟨hx, htype⟩
    refine ⟨x, hx, ?_⟩
    rw [if_neg (not_not.mpr htype)]
    rfl

/-- One round of the lookup. -/
theorem lookupRound_eq_ok {name : List UInt8} {next : Nat → NyfsM D Nat} :
    ((do
      let cur ← readDirInode i
      checkAccess cur cred nyfsAceExecute
      let (childIno, _) ← dirhashLookup cur name
      next childIno : NyfsM D Nat) v).1 = .ok k ↔
      MaySearch v cred i ∧
        ∃ j type, (lookupName i name v).1 = .ok (j, type) ∧ (next j v).1 = .ok k := by
  rw [(reads_readDirInode i).bind_eq_ok]
  constructor
  · rintro ⟨x, hx, hrest⟩
    rw [(reads_checkAccess x cred _).bind_eq_ok] at hrest
    obtain ⟨⟨⟩, haccess, hrest⟩ := hrest
    rw [(reads_dirhashLookup x name).bind_eq_ok] at hrest
    obtain ⟨⟨j, type⟩, hfound, hnext⟩ := hrest
    refine ⟨⟨x, (readDirInode_eq_ok.mp hx).1, haccess⟩, j, type, ?_, hnext⟩
    rw [lookupName, (reads_readDirInode i).bind_eq_ok]
    exact ⟨x, hx, hfound⟩
  · rintro ⟨⟨x, hx, haccess⟩, j, type, hlookup, hnext⟩
    rw [lookupName, (reads_readDirInode i).bind_eq_ok] at hlookup
    obtain ⟨y, hy, hfound⟩ := hlookup
    obtain rfl : y = x := by
      have hsame := (readDirInode_eq_ok.mp hy).1
      rw [hx] at hsame
      exact (Except.ok.inj hsame).symm
    refine ⟨y, hy, ?_⟩
    rw [(reads_checkAccess y cred _).bind_eq_ok]
    refine ⟨(), haccess, ?_⟩
    rw [(reads_dirhashLookup y name).bind_eq_ok]
    exact ⟨(j, type), hfound, hnext⟩

/-- The components as the lookup reads them: cut at the length of its buffer. -/
def cutComponents (path : List UInt8) : List (List UInt8) :=
  (components path).map (List.take nyfsNameMax)

theorem pathLookupLoop_eq_ok (cred : Cred) {fuel : Nat} {path : List UInt8} (hfuel : path.length < fuel)
    {i : Nat} : (pathLookupLoop cred fuel path i v).1 = .ok k ↔ Walks v cred i (cutComponents path) k := by
  induction fuel generalizing path i with
  | zero => omega
  | succ fuel ih =>
      unfold pathLookupLoop nextComponent
      by_cases hnil : skipSlashes path = []
      · have hcomponents : cutComponents path = [] := by
          rw [cutComponents, ← components_skipSlashes, hnil]
          rfl
        dsimp only
        rw [if_pos hnil, hcomponents, walks_nil]
        dsimp only
        rw [if_pos rfl, Eff.pure_run]
        exact ⟨fun hok => Except.ok.inj hok, fun hik => by rw [hik]⟩
      · have hcomponents := components_eq_cons hnil
        have hcut : (((skipSlashes path).takeWhile (fun b => b ≠ slash)).take (nyfsNameMax + 1 - 1)) ≠
            [] := by
          rw [Nat.add_sub_cancel, Ne, List.take_eq_nil_iff, not_or]
          exact ⟨by decide, takeWhile_skipSlashes_ne hnil⟩
        have hlt : (skipSlashes ((skipSlashes path).dropWhile (fun b => b ≠ slash))).length < fuel := by
          have hpos := List.length_pos_of_ne_nil (takeWhile_skipSlashes_ne hnil)
          have hsplit := congrArg List.length (List.takeWhile_append_dropWhile
            (p := fun b => decide (b ≠ slash)) (l := skipSlashes path))
          rw [List.length_append] at hsplit
          have hrest := Vfs.length_skipSlashes_le
            ((skipSlashes path).dropWhile (fun b => decide (b ≠ slash)))
          have hpath := Vfs.length_skipSlashes_le path
          omega
        dsimp only
        rw [if_neg hnil]
        dsimp only
        rw [if_neg hcut, lookupRound_eq_ok, cutComponents, hcomponents, List.map_cons, walks_cons]
        refine and_congr_right (fun _ => exists_congr (fun j => exists_congr (fun type => ?_)))
        exact and_congr_right (fun _ => ih hlt)

theorem reads_pathLookup (path : List UInt8) (cred : Cred) :
    Eff.Reads (pathLookup path cred : NyfsM D _) := by
  have hloop : ∀ fuel path curIno,
      Eff.Reads (pathLookupLoop cred fuel path curIno : NyfsM D _) := by
    intro fuel
    induction fuel with
    | zero => exact fun _ _ => Eff.reads_fail _
    | succ fuel ih =>
        intro path curIno
        refine Eff.reads_ite (Eff.reads_pure _) ((reads_readDirInode curIno).bind (fun cur => ?_))
        refine (reads_checkAccess cur cred _).bind (fun _ => ?_)
        exact (reads_dirhashLookup cur _).bind (fun found => ih _ _)
  exact hloop _ _ _

/-- A lookup follows the cut components. -/
theorem pathLookup_eq_ok {path : List UInt8} :
    (pathLookup path cred v).1 = .ok k ↔ Walks v cred nyfsRootIno (cutComponents path) k :=
  pathLookupLoop_eq_ok cred (Nat.lt_succ_self _)

/-! ## The entries of a directory -/

/-- A record on the chain that starts at an offset, and the offset of the record. -/
inductive OnChain (v : Volume D) (root : Nat) : Nat → Nat → Dirent → Prop
  | here {cur : Nat} {de : Dirent} (hcur : cur ≠ 0) (hread : (readDirent root cur v).1 = .ok de) :
      OnChain v root cur cur de
  | next {cur o : Nat} {de de' : Dirent} (hcur : cur ≠ 0)
      (hread : (readDirent root cur v).1 = .ok de) (hrest : OnChain v root de.nextOffset o de') :
      OnChain v root cur o de'

/-- The directory has an entry with exactly this name, on a chain of its hash table, that points to
the inode. -/
def HasEntry (v : Volume D) (dir : Nat) (name : List UInt8) (ino : Nat) : Prop :=
  ∃ x b head o de, (readInode dir v).1 = .ok x ∧ x.type = nyfsInoTypeDir ∧
    (bucketHead x.dirHashRoot b v).1 = .ok head ∧ OnChain v x.dirHashRoot head o de ∧
    de.ino = ino ∧ de.nameLen = name.length ∧
    (extentReadAt x.dirHashRoot ((o + 24) % 2 ^ 64) name.length v).1 = .ok name

/-- The entries with the given names lead from the first inode to the last. -/
inductive Follows (v : Volume D) : Nat → List (List UInt8) → Nat → Prop
  | nil (i : Nat) : Follows v i [] i
  | cons {i j k : Nat} {name : List UInt8} {names : List (List UInt8)} (hentry : HasEntry v i name j)
      (hrest : Follows v j names k) : Follows v i (name :: names) k

/-- The search of a chain ends at a record with the name. -/
theorem dirhashFind_onChain {root hash : Nat} {name : List UInt8} {fuel prev cur : Nat}
    {found : Nat × Dirent} (h : (dirhashFind root hash name fuel prev cur v).1 = .ok found) :
    ∃ o, OnChain v root cur o found.2 ∧ found.2.nameLen = name.length ∧
      (extentReadAt root ((o + 24) % 2 ^ 64) name.length v).1 = .ok name := by
  induction fuel generalizing prev cur with
  | zero => cases h
  | succ fuel ih =>
      unfold dirhashFind at h
      split at h
      next => cases h
      next hcur =>
        rw [(reads_readDirent root cur).bind_eq_ok] at h
        obtain ⟨de, hread, h⟩ := h
        rw [(reads_nameMatches root hash name cur de).bind_eq_ok] at h
        obtain ⟨matched, hmatched, h⟩ := h
        split at h
        next htrue =>
          subst htrue
          cases h
          unfold nameMatches at hmatched
          split at hmatched
          next hsame =>
            rw [(reads_extentReadAt _ _ _).bind_eq_ok] at hmatched
            obtain ⟨bytes, hbytes, heq⟩ := hmatched
            have hname : bytes = name := of_decide_eq_true (Except.ok.inj heq)
            rw [hname] at hbytes
            exact ⟨cur, OnChain.here hcur hread, hsame.2, hbytes⟩
          next => cases hmatched
        next =>
          obtain ⟨o, hchain, hrest⟩ := ih h
          exact ⟨o, OnChain.next hcur hread hchain, hrest⟩

/-- A name that is found is an entry of the directory, and no longer than a name may be. -/
theorem hasEntry_of_lookupName {name : List UInt8} {type : Nat}
    (h : (lookupName i name v).1 = .ok (j, type)) :
    HasEntry v i name j ∧ name.length ≤ nyfsNameMax := by
  rw [lookupName, (reads_readDirInode i).bind_eq_ok] at h
  obtain ⟨x, hx, h⟩ := h
  obtain ⟨hread, htype⟩ := readDirInode_eq_ok.mp hx
  unfold dirhashLookup at h
  split at h
  next => cases h
  next =>
    split at h
    next => cases h
    next hname =>
      rw [(reads_dirhashSlot _ _).bind_eq_ok] at h
      obtain ⟨⟨hdr, head⟩, hslot, h⟩ := h
      rw [(reads_dirhashFind _ _ _ _ _ _).bind_eq_ok] at h
      obtain ⟨⟨prev, de⟩, hfound, h⟩ := h
      obtain ⟨o, hchain, hlen, hbytes⟩ := dirhashFind_onChain hfound
      unfold dirhashSlot at hslot
      rw [(reads_dirhashHeader _).bind_eq_ok] at hslot
      obtain ⟨hdr', -, hslot⟩ := hslot
      rw [(reads_bucketHead _ _).bind_eq_ok] at hslot
      obtain ⟨head', hhead, heq⟩ := hslot
      cases heq
      cases h
      exact ⟨⟨x, _, head, o, de, hread, htype, hhead, hchain, rfl, hlen, hbytes⟩,
        Nat.not_lt.mp (fun hlt => hname (Or.inr hlt))⟩

/-- A walk follows entries with exactly the names it looks up. -/
theorem Walks.follows {names : List (List UInt8)} (h : Walks v cred i names k) :
    Follows v i names k := by
  induction h with
  | nil i => exact Follows.nil i
  | cons hsearch hlookup hrest ih => exact Follows.cons (hasEntry_of_lookupName hlookup).1 ih

/-- A path lookup answers for the whole components exactly when no component is longer than a name
may be, or the components cut at that length lead nowhere. -/
theorem host_lookup_exact_iff (v : Volume D) (cred : Cred) (path : List UInt8) :
    (∀ ino, (pathLookup path cred v).1 = .ok ino →
        Follows v nyfsRootIno (components path) ino ∧
          ∀ name ∈ components path, name.length ≤ nyfsNameMax) ↔
      (∀ name ∈ components path, name.length ≤ nyfsNameMax) ∨
        ∀ ino, ¬Walks v cred nyfsRootIno (cutComponents path) ino := by
  constructor
  · intro h
    by_cases hsome : ∃ ino, Walks v cred nyfsRootIno (cutComponents path) ino
    · obtain ⟨ino, hwalks⟩ := hsome
      exact Or.inl (h ino (pathLookup_eq_ok.mpr hwalks)).2
    · exact Or.inr (fun ino hwalks => hsome ⟨ino, hwalks⟩)
  · rintro (hshort | hnone) ino hok
    · have hcut : cutComponents path = components path := by
        refine (List.map_congr_left (fun name hname => ?_)).trans (List.map_id _)
        exact List.take_of_length_le (hshort name hname)
      have hwalks := pathLookup_eq_ok.mp hok
      rw [hcut] at hwalks
      exact ⟨hwalks.follows, hshort⟩
    · exact absurd (pathLookup_eq_ok.mp hok) (hnone ino)

variable {L : Layout} {nodes : Nat → Node}

/-- On a sound volume a live inode may be searched when it grants it. -/
theorem Sound.maySearch_iff (h : Sound L v nodes) (hi : Live L v.view i) :
    MaySearch v cred i ↔ Grants v.view (v.view.inode i) cred nyfsAceExecute := by
  obtain ⟨w, hread, -⟩ := (h.inventory.toOwned.does_readInode (D := D) h.valid hi).run h.valid
    h.mounted rfl
  obtain ⟨w', haccess, -⟩ := ((h.inventory.holds i hi).does_checkAccess (D := D) h.valid cred
    nyfsAceExecute).run h.valid h.mounted rfl
  unfold MaySearch
  rw [hread]
  constructor
  · rintro ⟨x, hx, hok⟩
    cases hx
    rw [haccess] at hok
    by_contra hno
    rw [if_neg hno] at hok
    cases hok
  · intro hgrants
    refine ⟨_, rfl, ?_⟩
    rw [haccess, if_pos hgrants]

/-- A path of 256 bytes without a slash finds a file whose name is its first 255 bytes. -/
theorem long_component_resolved : ∃ v : Volume MemoryDisk,
    Reachable anyRequest (tinyParams 114) ⟨fun _ => 0⟩ v ∧
      (pathLookup (List.replicate 256 97) ⟨0, 0⟩ v).1 = .ok 2 ∧
      ∃ name ∈ components (List.replicate 256 97), nyfsNameMax < name.length := by
  obtain ⟨v, nodes, hreach, hsound, hfile⟩ := tiny_file (D := MemoryDisk) anyRequest (Or.inl rfl)
    ⟨fun _ => 0⟩ (longName_ok 97) (fun _ => trivial)
  have hcomponents : components (List.replicate 256 97) = [List.replicate 256 97] := by
    refine components_name (by decide) (fun hmem => ?_)
    exact absurd (List.eq_of_mem_replicate hmem) (by decide)
  have hcut : cutComponents (List.replicate 256 97) = [longName 97] := by
    rw [cutComponents, hcomponents, List.map_singleton, List.take_replicate]
    rfl
  have hroot := hsound.inventory.root
  refine ⟨v, hreach, pathLookup_eq_ok.mpr ?_, List.replicate 256 97, ?_, ?_⟩
  · rw [hcut]
    refine @Walks.cons _ _ _ _ _ 2 2 nyfsDirentTypeFile _ _
      ((hsound.maySearch_iff hroot.1).mpr (Or.inl rfl)) ?_ (Walks.nil 2)
    rw [hsound.lookupName hroot.1, if_pos hroot.2, Node.lookup,
      if_neg (longName_ok 97).not_invalid, hfile.find, Function.update_self]
    rfl
  · rw [hcomponents]
    exact List.mem_singleton_self _
  · rw [List.length_replicate]
    decide

/-! ## The parent of a path -/

/-- The last slash of a path. -/
theorem lastSlash_cases (path : List UInt8) (index : Nat) (found : Option Nat) :
    (slash ∉ path ∧ lastSlash index path found = found) ∨
      ∃ dir name, path = dir ++ slash :: name ∧ slash ∉ name ∧
        lastSlash index path found = some (index + dir.length) := by
  induction path generalizing index found with
  | nil => exact Or.inl ⟨List.not_mem_nil, rfl⟩
  | cons c path ih =>
      rw [lastSlash]
      rcases ih (index + 1) (if c = slash then some index else found) with
        ⟨hno, hsame⟩ | ⟨dir, name, hsplit, hname, hlast⟩
      · by_cases hc : c = slash
        · refine Or.inr ⟨[], path, by rw [hc]; rfl, hno, ?_⟩
          rw [hsame, if_pos hc]
          rfl
        · refine Or.inl ⟨?_, ?_⟩
          · rw [List.mem_cons, not_or]
            exact ⟨fun heq => hc heq.symm, hno⟩
          · rw [hsame, if_neg hc]
      · refine Or.inr ⟨c :: dir, name, by rw [hsplit]; rfl, hname, ?_⟩
        rw [hlast, List.length_cons]
        congr 1
        omega

/-- The parts of a path: there is no slash, or the directory stands in front of the last one. -/
theorem splitParent_cases (path : List UInt8) :
    slash ∉ (splitParent path).2 ∧
      (splitParent path = ([], path) ∨
        path = (splitParent path).1 ++ slash :: (splitParent path).2) := by
  unfold splitParent
  rcases lastSlash_cases path 0 none with ⟨hno, hlast⟩ | ⟨dir, name, hsplit, hname, hlast⟩
  · rw [hlast]
    exact ⟨hno, Or.inl rfl⟩
  · rw [hlast, Nat.zero_add, hsplit]
    dsimp only
    have htake : (dir ++ slash :: name).take dir.length = dir := List.take_left
    have hdrop : (dir ++ slash :: name).drop (dir.length + 1) = name := by
      rw [← List.drop_drop, List.drop_left]
      rfl
    rw [htake, hdrop]
    exact ⟨hname, Or.inr rfl⟩

/-- The components of a path are those of its directory and the name. -/
theorem components_splitParent {path : List UInt8} (hname : (splitParent path).2 ≠ []) :
    components path = components (splitParent path).1 ++ [(splitParent path).2] := by
  obtain ⟨hslash, hsplit | hsplit⟩ := splitParent_cases path
  · rw [hsplit] at hslash hname ⊢
    exact components_name hname hslash
  · have hparts : (path.splitOn slash) =
        (splitParent path).1.splitOn slash ++ (splitParent path).2.splitOn slash := by
      conv_lhs => rw [hsplit]
      rw [List.splitOn_eq_splitOnP, List.splitOn_eq_splitOnP, List.splitOn_eq_splitOnP]
      exact List.splitOnP_append_cons (p := (· == slash)) _ _ (beq_self_eq_true slash)
    rw [components, hparts, List.filter_append, ← components, ← components,
      components_name hname hslash]

/-- The directory and the name of a path, as {lit}`nyfs_path_lookup_parent` takes them apart. -/
def parentParts (path : List UInt8) : List UInt8 × List UInt8 :=
  splitParent (skipSlashes path)

/-- The parts of a path that the lookup of a parent accepts. -/
structure PartsAccepted (path : List UInt8) (nameMax : Nat) : Prop where
  dirLength : (parentParts path).1.length < dirbufSize
  nonempty : (parentParts path).2 ≠ []
  nameLength : (parentParts path).2.length ≤ nyfsNameMax
  nameFits : (parentParts path).2.length < nameMax

/-- What the lookup of a parent returns. -/
theorem pathLookupParent_eq_ok {path : List UInt8} {nameMax parent : Nat} {name : List UInt8} :
    (pathLookupParent path cred nameMax v).1 = .ok (parent, name) ↔
      PartsAccepted path nameMax ∧ name = (parentParts path).2 ∧
        ((parentParts path).1 = [] ∧ parent = nyfsRootIno ∧ MaySearch v cred nyfsRootIno ∨
          (parentParts path).1 ≠ [] ∧
            Walks v cred nyfsRootIno (cutComponents (parentParts path).1) parent) := by
  unfold pathLookupParent
  dsimp only
  by_cases hnil : skipSlashes path = []
  · rw [if_pos hnil]
    refine iff_of_false nofun (fun hok => hok.1.nonempty ?_)
    rw [parentParts, hnil]
    rfl
  rw [if_neg hnil, ← parentParts]
  by_cases hdir : dirbufSize ≤ (parentParts path).1.length
  · rw [if_pos hdir]
    exact iff_of_false nofun (fun hok => Nat.not_le.mpr hok.1.dirLength hdir)
  rw [if_neg hdir]
  by_cases hname : (parentParts path).2.length = 0 ∨ nyfsNameMax < (parentParts path).2.length
  · rw [if_pos hname]
    refine iff_of_false nofun (fun hok => ?_)
    rcases hname with hzero | hlong
    · exact hok.1.nonempty (List.length_eq_zero_iff.mp hzero)
    · exact Nat.not_lt.mpr hok.1.nameLength hlong
  rw [if_neg hname]
  by_cases hmax : nameMax ≤ (parentParts path).2.length
  · rw [if_pos hmax]
    exact iff_of_false nofun (fun hok => Nat.not_le.mpr hok.1.nameFits hmax)
  rw [if_neg hmax]
  have haccepted : PartsAccepted path nameMax :=
    ⟨Nat.not_le.mp hdir, fun hzero => hname (Or.inl (List.length_eq_zero_iff.mpr hzero)),
      Nat.not_lt.mp (fun hlong => hname (Or.inr hlong)), Nat.not_le.mp hmax⟩
  by_cases hroot : (parentParts path).1.length = 0
  · have hempty := List.length_eq_zero_iff.mp hroot
    rw [if_pos hroot, (reads_readInode nyfsRootIno).bind_eq_ok]
    constructor
    · rintro ⟨x, hx, hrest⟩
      rw [(reads_checkAccess x cred _).bind_eq_ok] at hrest
      obtain ⟨⟨⟩, haccess, hrest⟩ := hrest
      cases hrest
      exact ⟨haccepted, rfl, Or.inl ⟨hempty, rfl, x, hx, haccess⟩⟩
    · rintro ⟨-, rfl, ⟨-, rfl, x, hx, haccess⟩ | ⟨hne, -⟩⟩
      · refine ⟨x, hx, ?_⟩
        rw [(reads_checkAccess x cred _).bind_eq_ok]
        exact ⟨(), haccess, rfl⟩
      · exact absurd hempty hne
  · have hne : (parentParts path).1 ≠ [] := fun hempty => hroot (List.length_eq_zero_iff.mpr hempty)
    rw [if_neg hroot, (reads_pathLookup _ _).bind_eq_ok]
    constructor
    · rintro ⟨ino, hino, hrest⟩
      cases hrest
      exact ⟨haccepted, rfl, Or.inr ⟨hne, pathLookup_eq_ok.mp hino⟩⟩
    · rintro ⟨-, rfl, ⟨hempty, -⟩ | ⟨-, hwalks⟩⟩
      · exact absurd hempty hne
      · exact ⟨parent, pathLookup_eq_ok.mpr hwalks, rfl⟩

/-- The components in front of the last one are those of the directory. -/
theorem cutComponents_dropLast {path : List UInt8} (hname : (parentParts path).2 ≠ []) :
    (cutComponents path).dropLast = cutComponents (parentParts path).1 := by
  rw [cutComponents, ← components_skipSlashes, components_splitParent hname, List.map_append,
    List.map_singleton, List.dropLast_concat]
  rfl

/-- The inodes that the lookups of the names pass, the first and the last one included. -/
inductive Trail (v : Volume D) : Nat → List (List UInt8) → List Nat → Prop
  | nil (i : Nat) : Trail v i [] [i]
  | cons {i j type : Nat} {name : List UInt8} {names : List (List UInt8)} {dirs : List Nat}
      (hlookup : (lookupName i name v).1 = .ok (j, type)) (hrest : Trail v j names dirs) :
      Trail v i (name :: names) (i :: dirs)

/-- A walk checks every inode but the last. -/
theorem Walks.trail {names : List (List UInt8)} (h : Walks v cred i names k)
    (hlast : MaySearch v cred k) :
    ∃ dirs, Trail v i names dirs ∧ dirs.getLast? = some k ∧ ∀ d ∈ dirs, MaySearch v cred d := by
  induction h with
  | nil i =>
      refine ⟨[i], Trail.nil i, rfl, fun d hd => ?_⟩
      rw [List.mem_singleton.mp hd]
      exact hlast
  | cons hsearch hlookup hrest ih =>
      obtain ⟨dirs, htrail, hend, hall⟩ := ih hlast
      refine ⟨_, Trail.cons hlookup htrail, ?_, ?_⟩
      · rw [List.getLast?_cons, hend]
        rfl
      · intro d hd
        rcases List.mem_cons.mp hd with rfl | hd
        · exact hsearch
        · exact hall d hd

/-- The lookup of a parent has checked every directory up to the parent exactly when the path has no
directory part, or the parent that the directory part leads to may be searched. -/
theorem parent_lookup_searchable_iff (v : Volume D) (cred : Cred) (path : List UInt8)
    (nameMax : Nat) :
    (∀ parent name, (pathLookupParent path cred nameMax v).1 = .ok (parent, name) →
        ∃ dirs, Trail v nyfsRootIno (cutComponents path).dropLast dirs ∧
          dirs.getLast? = some parent ∧ ∀ d ∈ dirs, MaySearch v cred d) ↔
      (PartsAccepted path nameMax → (parentParts path).1 ≠ [] →
        ∀ parent, Walks v cred nyfsRootIno (cutComponents path).dropLast parent →
          MaySearch v cred parent) := by
  constructor
  · intro h haccepted hdir parent hwalks
    rw [cutComponents_dropLast haccepted.nonempty] at hwalks
    obtain ⟨dirs, -, hlast, hall⟩ := h parent (parentParts path).2
      (pathLookupParent_eq_ok.mpr ⟨haccepted, rfl, Or.inr ⟨hdir, hwalks⟩⟩)
    exact hall parent (List.mem_of_getLast? hlast)
  · intro h parent name hok
    obtain ⟨haccepted, -, ⟨hempty, rfl, hroot⟩ | ⟨hdir, hwalks⟩⟩ := pathLookupParent_eq_ok.mp hok
    · rw [cutComponents_dropLast haccepted.nonempty, hempty]
      exact (Walks.nil nyfsRootIno).trail hroot
    · rw [← cutComponents_dropLast haccepted.nonempty] at hwalks
      exact hwalks.trail (h haccepted hdir parent hwalks)

/-- On a fresh volume root makes a directory that nobody else may search. -/
theorem tiny_closed (d : D) : ∃ (v : Volume D) (nodes : Nat → Node),
    Reachable anyRequest (tinyParams 114) d v ∧ Sound (tinyParams 114).layout v nodes ∧
      Live (tinyParams 114).layout v.view 2 ∧
      (nodes nyfsRootIno).find [100] = some (2, nyfsDirentTypeDir) ∧
      Grants v.view (v.view.inode nyfsRootIno) ⟨1000, 1000⟩ nyfsAceExecute ∧
      ¬Grants v.view (v.view.inode 2) ⟨1000, 1000⟩ nyfsAceExecute := by
  obtain ⟨v, nodes, hreach, hsound, hfresh⟩ := tiny_opens anyRequest (Or.inl rfl) d
  have hname : NameOk [100] := ⟨by decide, by decide⟩
  obtain ⟨hstarts, hfirst, hacl, -, hroom⟩ := hfresh.takes_name hsound.valid (by decide) hname
  have htable : tablePlan (tinyParams 114).layout (mark v.view.blockBit []) true = some [62, 63] := by
    rw [mark_nil, hfresh.bits_eq]
    decide +kernel
  obtain ⟨nodes', hsound', heffect⟩ := hsound.exec (.make true nyfsRootIno [100] 0o700 ⟨0, 0⟩)
    ⟨by decide, by decide⟩ (fun i hi => by rw [List.mem_singleton.mp hi]; exact Found.root)
  have hreach' := Reachable.step hreach (.make true nyfsRootIno [100] 0o700 ⟨0, 0⟩)
    ⟨by decide, by decide⟩ (fun i hi => by rw [List.mem_singleton.mp hi]; exact Found.root) trivial
  refine ⟨_, nodes', hreach', hsound', ?_⟩
  clear hreach'
  generalize (Request.make true nyfsRootIno [100] 0o700 ⟨0, 0⟩).exec v = run at hsound' heffect ⊢
  obtain ⟨r, w⟩ := run
  dsimp only at hsound' heffect ⊢
  cases heffect with
  | make hout =>
      cases hout with
      | failed _ _ _ _ _ _ _ hno =>
          exact absurd ⟨hstarts, [], [62, 63], hacl true, htable, Or.inl hroom⟩ hno
      | made i _ hmade _ _ haces =>
          obtain rfl : i = 2 := by
            have hsome := hmade.first
            rw [hfirst] at hsome
            exact (Option.some.inj hsome).symm
          have hlive := hsound.inventory.root.1
          have hkept := hmade.kept nyfsRootIno hlive
          have hfield : ∀ {β : Type} (g : Inode → β), (∀ x : Inode, g x.core = g x) →
              g (w.view.inode nyfsRootIno) = g (v.view.inode nyfsRootIno) := by
            intro β g hg
            rw [← hg, hkept.core, hg]
          have hattributes : (w.view.inode 2).type = nyfsInoTypeDir ∧ (w.view.inode 2).uid = 0 ∧
              (w.view.inode 2).gid = 0 ∧ (w.view.inode 2).unixMode = 0o700 :=
            ⟨congrArg (fun x : Inode => x.type) hmade.attributes,
              congrArg (fun x : Inode => x.uid) hmade.attributes,
              congrArg (fun x : Inode => x.gid) hmade.attributes,
              congrArg (fun x : Inode => x.unixMode) hmade.attributes⟩
          have hplain : ((v.view.inode nyfsRootIno).aceCount = 0 ∧
                (v.view.inode nyfsRootIno).aclOverflowCount = 0) ∧
              (v.view.inode nyfsRootIno).uid = 0 ∧ (v.view.inode nyfsRootIno).gid = 0 ∧
              (v.view.inode nyfsRootIno).unixMode = 0o755 := by
            rw [hfresh.root]
            exact ⟨⟨rfl, rfl⟩, rfl, rfl, rfl⟩
          have hnone : (w.view.inode 2).aces w.view = [] := by
            rw [haces, inheritedAces, hfresh.root]
            rfl
          refine ⟨⟨by decide, by decide, ?_⟩, ?_, Or.inr ?_, ?_⟩
          · rw [hmade.inodeBit, Function.update_self]
          · rw [hmade.parent, Function.update_self, direntType, hattributes.1]
            rfl
          · rw [hfield Inode.aceCount (fun _ => rfl), hfield Inode.aclOverflowCount (fun _ => rfl),
              unixAccess, hfield Inode.uid (fun _ => rfl), hfield Inode.gid (fun _ => rfl),
              hfield Inode.unixMode (fun _ => rfl), if_pos hplain.1, hplain.2.1, hplain.2.2.1,
              hplain.2.2.2]
            decide
          · -- neither the mode nor the empty list grants the access
            rintro (hzero | hgrants)
            · exact absurd hzero (by decide)
            · rw [hnone, unixAccess, hattributes.2.1, hattributes.2.2.1, hattributes.2.2.2] at hgrants
              split at hgrants
              next => exact absurd hgrants (by decide)
              next => exact absurd hgrants (by decide)

/-- The parent of a name in a directory that the user may not search is found. -/
theorem closed_parent_found : ∃ v : Volume MemoryDisk,
    Reachable anyRequest (tinyParams 114) ⟨fun _ => 0⟩ v ∧
      (pathLookupParent [100, 47, 120] ⟨1000, 1000⟩ 256 v).1 = .ok (2, [120]) ∧
      ¬MaySearch v ⟨1000, 1000⟩ 2 := by
  obtain ⟨v, nodes, hreach, hsound, hlive, hfind, hroot, hclosed⟩ := tiny_closed (D := MemoryDisk)
    ⟨fun _ => 0⟩
  have hparts : parentParts [100, 47, 120] = ([100], [120]) := by decide
  have hcut : cutComponents [100] = [[100]] := by decide
  have hname : NameOk [100] := ⟨by decide, by decide⟩
  refine ⟨v, hreach, pathLookupParent_eq_ok.mpr ⟨⟨?_, ?_, ?_, ?_⟩, ?_, Or.inr ⟨?_, ?_⟩⟩, ?_⟩
  · rw [hparts]
    decide
  · rw [hparts]
    decide
  · rw [hparts]
    decide
  · rw [hparts]
    decide
  · rw [hparts]
  · rw [hparts]
    decide
  · rw [hparts, hcut]
    have hdir := hsound.inventory.root
    have hlookup : (lookupName nyfsRootIno [100] v).1 = .ok (2, nyfsDirentTypeDir) := by
      rw [hsound.lookupName hdir.1, if_pos hdir.2, Node.lookup, if_neg hname.not_invalid, hfind]
      rfl
    exact Walks.cons ((hsound.maySearch_iff hdir.1).mpr hroot) hlookup (Walks.nil 2)
  · rw [hsound.maySearch_iff hlive]
    exact hclosed

end Nyfs
end Nyxis
