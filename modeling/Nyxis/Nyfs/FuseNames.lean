import Nyxis.Nyfs.FuseMeaning

/-!
# Names under the FUSE driver

The lookups of the driver find what the tree has, and the requests that make, remove and rename do
to the tree what they mean.

Main results:

- Theorems {lit}`Sound.resolve_eq_ok` and {lit}`Sound.parentOf_eq_ok`: the lookups.
- Theorems {lit}`Sound.meets_mkdir`, {lit}`Sound.meets_create`, {lit}`Sound.meets_unlink`,
  {lit}`Sound.meets_rmdir` and {lit}`Sound.meets_rename`: the requests.
-/

namespace Nyxis
namespace Nyfs

open NameTree

variable {D : Type} [ReliableDevice D] {L : Layout} {v v' : Volume D}
variable {nodes nodes' : Nat → Node} {i : Nat} {cred : Cred}

open Fuse (FuseCall Response numbered valued reply replyWith nyfsResolve parentOf nyfsStatusToErrno
  nyfsStatusToErrno_neg dirOf nameOf placeOf ParentAt MakesAt RemovesAt RenamesAt Serves TreeStep Empty
  MakeAnswer)

/-! ## Replies -/

omit [ReliableDevice D] in
theorem attemptStatus_ok {α : Type} {m : NyfsM D α} {a : α} (h : m v = (.ok a, v')) :
    attemptStatus m v = (.ok (.ok a), v') := by
  rw [attemptStatus, h]

omit [ReliableDevice D] in
theorem attemptStatus_error {α : Type} {m : NyfsM D α} {e : Nstatus}
    (h : m v = (.error (.status e), v')) : attemptStatus m v = (.ok (.error e), v') := by
  rw [attemptStatus, h]

omit [ReliableDevice D] in
theorem reply_ok [Device D] {m : NyfsM D Int} {n : Int} (h : m v = (.ok n, v')) :
    reply m v = (.ok n, v') := by
  rw [reply, Eff.bind_ok (attemptStatus_ok h)]
  rfl

omit [ReliableDevice D] in
theorem reply_error [Device D] {m : NyfsM D Int} {e : Nstatus} (h : m v = (.error (.status e), v')) :
    reply m v = (.ok (nyfsStatusToErrno e), v') := by
  rw [reply, Eff.bind_ok (attemptStatus_error h)]
  rfl

omit [ReliableDevice D] in
theorem numbered_run {m : NyfsM D Int} {n : Int} (h : m v = (.ok n, v')) :
    numbered m v = (.ok ⟨n, .nothing⟩, v') := by
  rw [numbered, Eff.bind_ok h]
  rfl

omit [ReliableDevice D] in
theorem replyWith_ok [Device D] {α : Type} {m : NyfsM D α} {a : α} (h : m v = (.ok a, v')) :
    replyWith m v = (.ok (0, some a), v') := by
  rw [replyWith, Eff.bind_ok (attemptStatus_ok h)]
  rfl

omit [ReliableDevice D] in
theorem replyWith_error [Device D] {α : Type} {m : NyfsM D α} {e : Nstatus}
    (h : m v = (.error (.status e), v')) :
    replyWith m v = (.ok (nyfsStatusToErrno e, none), v') := by
  rw [replyWith, Eff.bind_ok (attemptStatus_error h)]
  rfl

theorem valued_ok {α : Type} (wrap : α → Fuse.Payload) {m : NyfsM D α} {a : α}
    (h : m v = (.ok a, v')) : valued wrap (replyWith m) v = (.ok ⟨0, wrap a⟩, v') := by
  rw [valued, Eff.bind_ok (replyWith_ok h)]
  rfl

theorem valued_error {α : Type} (wrap : α → Fuse.Payload) {m : NyfsM D α} {e : Nstatus}
    (h : m v = (.error (.status e), v')) :
    valued wrap (replyWith m) v = (.ok ⟨nyfsStatusToErrno e, .nothing⟩, v') := by
  rw [valued, Eff.bind_ok (replyWith_error h)]
  rfl

/-! ## Lookups -/

/-- A call that only reads, and ends with a value or a status. -/
structure Asks {α : Type} (m : NyfsM D α) (v : Volume D) : Prop where
  same : (m v).2 = v
  status : ∀ e, (m v).1 = .error e → ∃ s, e = .status s

omit [ReliableDevice D] in
theorem Asks.cases {α : Type} {m : NyfsM D α} (h : Asks m v) :
    (∃ a, m v = (.ok a, v)) ∨ ∃ e, m v = (.error (.status e), v) := by
  obtain ⟨hsame, hstatus⟩ := h
  cases hrun : m v with
  | mk r v' =>
      rw [hrun] at hsame hstatus
      obtain rfl : v' = v := hsame
      cases r with
      | ok a => exact Or.inl ⟨a, rfl⟩
      | error e =>
          obtain ⟨s, rfl⟩ := hstatus e rfl
          exact Or.inr ⟨s, rfl⟩

omit [ReliableDevice D] in
theorem Asks.pure {α : Type} (a : α) : Asks (Pure.pure a : NyfsM D α) v :=
  ⟨rfl, fun _ h => by cases h⟩

omit [ReliableDevice D] in
theorem Asks.fail {α : Type} (e : Nstatus) : Asks (failWith e : NyfsM D α) v :=
  ⟨rfl, fun _ h => ⟨e, by cases h; rfl⟩⟩

omit [ReliableDevice D] in
theorem Asks.bind {α β : Type} {m : NyfsM D α} {f : α → NyfsM D β} (hm : Asks m v)
    (hf : ∀ a, (m v).1 = .ok a → Asks (f a) v) : Asks (m >>= f) v := by
  rcases hm.cases with ⟨a, hrun⟩ | ⟨e, hrun⟩
  · have ha := hf a (by rw [hrun])
    constructor
    · rw [Eff.bind_ok hrun]
      exact ha.same
    · rw [Eff.bind_ok hrun]
      exact ha.status
  · constructor
    · rw [Eff.bind_error hrun]
    · rw [Eff.bind_error hrun]
      rintro _ ⟨⟩
      exact ⟨e, rfl⟩

/-- A reading call of known outcome. -/
theorem Asks.of_does {α : Type} {m : NyfsM D α} {r : Except Stop α} (h : Sound L v nodes)
    (hreads : Eff.Reads m) (hdoes : Does L v.view m r v.view)
    (hstatus : ∀ e, r = .error e → ∃ s, e = .status s) : Asks m v := by
  obtain ⟨w, hrun, -⟩ := hdoes.run h.valid h.mounted rfl
  refine ⟨hreads v, fun e he => hstatus e ?_⟩
  rw [hrun] at he
  exact he

theorem Sound.asks_readInode (h : Sound L v nodes) (hi : Live L v.view i) :
    Asks (readInode i : NyfsM D _) v :=
  Asks.of_does h (reads_readInode i) (h.inventory.toOwned.does_readInode h.valid hi)
    (fun e he => by cases he)

theorem Sound.asks_readDirInode (h : Sound L v nodes) (hi : Live L v.view i) :
    Asks (readDirInode i : NyfsM D _) v := by
  refine (h.asks_readInode hi).bind (fun x _ => ?_)
  split
  · exact Asks.fail _
  · exact Asks.pure x

theorem Sound.asks_checkAccess (h : Sound L v nodes) (hi : Live L v.view i) (mask : Nat) :
    Asks (checkAccess (v.view.inode i) cred mask : NyfsM D _) v := by
  refine Asks.of_does h (reads_checkAccess _ cred mask)
    ((h.inventory.holds i hi).does_checkAccess h.valid cred mask) (fun e he => ?_)
  split at he
  · cases he
  · cases he
    exact ⟨_, rfl⟩

theorem Sound.readInode_ok (h : Sound L v nodes) (hi : Live L v.view i) :
    (readInode i v).1 = .ok (v.view.inode i) := by
  obtain ⟨w, hrun, -⟩ := (h.inventory.toOwned.does_readInode (D := D) h.valid hi).run h.valid
    h.mounted rfl
  rw [hrun]

/-- On a sound volume a path lookup ends with an inode or a status. -/
theorem Sound.asks_pathLookup (h : Sound L v nodes) (path : List UInt8) :
    Asks (pathLookup path cred : NyfsM D _) v := by
  have hloop : ∀ fuel (path : List UInt8) i, path.length < fuel → Live L v.view i →
      Asks (pathLookupLoop cred fuel path i : NyfsM D _) v := by
    intro fuel
    induction fuel with
    | zero => exact fun path i hlt _ => absurd hlt (Nat.not_lt_zero _)
    | succ fuel ih =>
        intro path i hlt hi
        unfold pathLookupLoop nextComponent
        by_cases hnil : Vfs.skipSlashes path = []
        · dsimp only
          rw [if_pos hnil]
          exact Asks.pure i
        · dsimp only
          rw [if_neg hnil]
          dsimp only
          split
          · exact Asks.pure i
          · refine (h.asks_readDirInode hi).bind (fun x hx => ?_)
            obtain rfl : v.view.inode i = x := by
              have hread := (readDirInode_eq_ok.mp hx).1
              rw [h.readInode_ok hi] at hread
              exact Except.ok.inj hread
            refine (h.asks_checkAccess hi _).bind (fun _ _ => ?_)
            have htype := (readDirInode_eq_ok.mp hx).2
            have hlookup := (h.inventory.holds i hi).does_lookup (D := D) h.valid htype
              (((Vfs.skipSlashes path).takeWhile (fun b => b ≠ Vfs.slash)).take (nyfsNameMax + 1 - 1))
            refine (Asks.of_does h (reads_dirhashLookup _ _) hlookup (fun e he => ?_)).bind
              (fun found hfound => ?_)
            · rcases (nodes i).lookup_cases _ with ⟨s, hs, -⟩ | ⟨found, hok, -⟩
              · rw [hs] at he
                exact ⟨s, (Except.error.inj he).symm⟩
              · rw [hok] at he
                cases he
            · obtain ⟨w, hrun, -⟩ := hlookup.run h.valid h.mounted rfl
              rw [hrun] at hfound
              rcases (nodes i).lookup_cases _ with ⟨s, hs, -⟩ | ⟨⟨j, type⟩, hok, -, hfind⟩
              · rw [hs] at hfound
                cases hfound
              · rw [hok] at hfound
                cases hfound
                refine ih _ j ?_ (h.inventory.target_of_find hi hfind).1
                have hpos := List.length_pos_of_ne_nil (takeWhile_skipSlashes_ne hnil)
                have hsplit := congrArg List.length (List.takeWhile_append_dropWhile
                  (p := fun b => decide (b ≠ Vfs.slash)) (l := Vfs.skipSlashes path))
                rw [List.length_append] at hsplit
                have hrest := Vfs.length_skipSlashes_le
                  ((Vfs.skipSlashes path).dropWhile (fun b => decide (b ≠ Vfs.slash)))
                have hpath := Vfs.length_skipSlashes_le path
                omega
  exact hloop _ path _ (Nat.lt_succ_self _) h.inventory.root.1

/-- The lookup of a parent ends with an inode and a name or with a status. -/
theorem Sound.asks_parentOf (h : Sound L v nodes) (path : List UInt8) :
    Asks (parentOf path cred : NyfsM D _) v := by
  unfold parentOf pathLookupParent
  dsimp only
  split
  · exact Asks.fail _
  split
  · exact Asks.fail _
  split
  · exact Asks.fail _
  split
  · exact Asks.fail _
  split
  · have hroot := h.inventory.root.1
    refine (h.asks_readInode hroot).bind (fun x hx => ?_)
    rw [h.readInode_ok hroot] at hx
    obtain rfl := Except.ok.inj hx
    exact (h.asks_checkAccess hroot _).bind (fun _ _ => Asks.pure _)
  · exact (h.asks_pathLookup _).bind (fun parent _ => Asks.pure _)

/-- The lookup of the inode of a path. -/
theorem Sound.asks_resolve (h : Sound L v nodes) (path : List UInt8) :
    Asks (nyfsResolve path cred : NyfsM D _) v := by
  unfold nyfsResolve
  split
  · exact Asks.pure _
  · exact h.asks_pathLookup path

/-- The inode of a path stands at the place that the tree has for it. -/
theorem Sound.resolve_eq_ok (h : Sound L v nodes) (hplain : Plain L v.view) {path : List UInt8}
    {k : Nat} : (nyfsResolve path cred v).1 = .ok k ↔
      walk (edgeOf v) nyfsRootIno (cutComponents path) = some k ∧
        ShowsAt (treeOf v) cred (cutComponents path) (objectOf v k) := by
  rw [← h.walks_iff hplain, nyfsResolve]
  split
  next hroot =>
    have hnames : cutComponents path = [] := by
      rw [hroot]
      rfl
    rw [hnames, walks_nil, Eff.pure_run]
    exact ⟨fun hok => Except.ok.inj hok, fun heq => by rw [heq]⟩
  next => exact pathLookup_eq_ok

/-- A path leads to an inode, or the tree does not grant the way. -/
theorem Sound.resolve_cases (h : Sound L v nodes) (hplain : Plain L v.view) (path : List UInt8) :
    (∃ k, nyfsResolve path cred v = (.ok k, v) ∧
        walk (edgeOf v) nyfsRootIno (cutComponents path) = some k ∧
        ShowsAt (treeOf v) cred (cutComponents path) (objectOf v k)) ∨
      ∃ e, nyfsResolve path cred v = (.error (.status e), v) ∧
        ∀ o, ¬ShowsAt (treeOf v) cred (cutComponents path) o := by
  rcases (h.asks_resolve path).cases with ⟨k, hrun⟩ | ⟨e, hrun⟩
  · obtain ⟨hwalk, hshows⟩ := (h.resolve_eq_ok hplain).mp (by rw [hrun])
    exact Or.inl ⟨k, hrun, hwalk, hshows⟩
  · refine Or.inr ⟨e, hrun, fun o hshows => ?_⟩
    obtain ⟨k, hwalk, rfl⟩ := treeOf_eq_some.mp hshows.object
    have hok := (h.resolve_eq_ok hplain).mpr ⟨hwalk, hshows⟩
    rw [hrun] at hok
    cases hok

/-- The parent of a path stands at the place that the tree has for it. -/
theorem Sound.parentOf_eq_ok (h : Sound L v nodes) (hplain : Plain L v.view) {path name : List UInt8}
    {k : Nat} : (parentOf path cred v).1 = .ok (k, name) ↔
      name = nameOf path ∧ walk (edgeOf v) nyfsRootIno (dirOf path) = some k ∧
        ParentAt (treeOf v) cred path (objectOf v k) := by
  rw [parentOf, pathLookupParent_eq_ok]
  have hroot := h.inventory.root.1
  constructor
  · rintro ⟨haccepted, rfl, ⟨hnil, rfl, hsearch⟩ | ⟨hne, hwalks⟩⟩
    · have hdir : dirOf path = [] := by
        rw [dirOf, hnil]
        rfl
      rw [hdir]
      refine ⟨rfl, rfl, haccepted, ?_, fun _ => (h.maySearch_object hplain hroot).mp hsearch⟩
      rw [hdir]
      exact ⟨treeOf_walk rfl, fun q a hq hne _ => absurd (List.prefix_nil.mp hq) hne⟩
    · obtain ⟨hwalk, hres⟩ := (h.walks_iff hplain).mp hwalks
      exact ⟨rfl, hwalk, haccepted, hres, fun hnil => absurd hnil hne⟩
  · rintro ⟨rfl, hwalk, hparent⟩
    refine ⟨hparent.accepted, rfl, ?_⟩
    by_cases hnil : (parentParts path).1 = []
    · have hdir : dirOf path = [] := by
        rw [dirOf, hnil]
        rfl
      rw [hdir, walk_nil] at hwalk
      obtain rfl := Option.some.inj hwalk
      exact Or.inl ⟨hnil, rfl, (h.maySearch_object hplain hroot).mpr (hparent.rootSearch hnil)⟩
    · exact Or.inr ⟨hnil, (h.walks_iff hplain).mpr ⟨hwalk, hparent.resolves⟩⟩

/-- The place that the tree has for the parent of a path is the place of an inode. -/
theorem Sound.parentOf_of_parentAt (h : Sound L v nodes) (hplain : Plain L v.view)
    {path : List UInt8} {dir : Object} (hdir : ParentAt (treeOf v) cred path dir) :
    ∃ k, parentOf path cred v = (.ok (k, nameOf path), v) ∧ objectOf v k = dir ∧
      walk (edgeOf v) nyfsRootIno (dirOf path) = some k := by
  obtain ⟨k, hwalk, rfl⟩ := treeOf_eq_some.mp hdir.resolves.object
  refine ⟨k, ?_, rfl, hwalk⟩
  have hok := (h.parentOf_eq_ok hplain).mpr ⟨rfl, hwalk, hdir⟩
  rcases (h.asks_parentOf path).cases with ⟨a, hrun⟩ | ⟨e, hrun⟩
  · rw [hrun] at hok
    rw [hrun, Except.ok.inj hok]
  · rw [hrun] at hok
    cases hok

theorem Sound.object_ino (h : Sound L v nodes) (hi : Live L v.view i) : (objectOf v i).ino = i := by
  rw [h.objectOf_eq hi]
  rfl

theorem Sound.object_isDir (h : Sound L v nodes) (hi : Live L v.view i) :
    (objectOf v i).isDir = true ↔ (v.view.inode i).type = nyfsInoTypeDir := by
  rw [h.objectOf_eq hi]
  exact decide_eq_true_iff

theorem Sound.object_grants (h : Sound L v nodes) (hplain : Plain L v.view) (hi : Live L v.view i)
    (mask : Nat) :
    (objectOf v i).Grants cred mask ↔ Grants v.view (v.view.inode i) cred mask := by
  rw [h.objectOf_eq hi]
  exact (hplain.grants_iff hi _ _ mask).symm

/-- What stands at a name of a directory is what its record says. -/
theorem Sound.tree_below (h : Sound L v nodes) {place : Names}
    (hwalk : walk (edgeOf v) nyfsRootIno place = some i) (name : List UInt8) :
    treeOf v (place ++ [name]) = ((nodes i).find name).map (fun found => objectOf v found.1) := by
  rw [treeOf, view, walk_snoc, hwalk, Option.bind_some, h.edgeOf_eq (h.walk_live hwalk),
    Option.map_map]
  rfl

theorem Plain.of_kept (hplain : Plain L v.view) (hlive : ∀ j, Live L v'.view j →
    Live L v.view j ∧ Kept L v.view nodes v'.view nodes' j) : Plain L v'.view := by
  intro j hj
  obtain ⟨hold, hkept⟩ := hlive j hj
  obtain ⟨hcount, hover⟩ := hplain j hold
  have hcountCore := congrArg (fun z : Inode => z.aceCount) hkept.core
  have hoverCore := congrArg (fun z : Inode => z.aclOverflowCount) hkept.core
  exact ⟨hcountCore.trans hcount, hoverCore.trans hover⟩

/-- A volume that a request leaves behind: sound, without lists, with the same superblock but for
the counters. -/
structure StaysServed (L : Layout) (v v' : Volume D) (nodes' : Nat → Node) : Prop where
  sound : Sound L v' nodes'
  plain : Plain L v'.view
  core : v'.sb.core = v.sb.core

theorem StaysServed.refl (h : Sound L v nodes) (hplain : Plain L v.view) : StaysServed L v v nodes :=
  ⟨h, hplain, rfl⟩

/-! ## Making -/

/-- The checks of a creation on the volume are those on the tree. -/
theorem Sound.makesAt_iff (h : Sound L v nodes) (hplain : Plain L v.view) {path : List UInt8} {p : Nat}
    (hwalk : walk (edgeOf v) nyfsRootIno (dirOf path) = some p)
    (hat : ParentAt (treeOf v) cred path (objectOf v p)) :
    MakesAt (treeOf v) cred path (objectOf v p) ↔
      MakeAllowed v.view (nodes p) (v.view.inode p) (nameOf path) cred := by
  have hp := h.walk_live hwalk
  have hfree : treeOf v (placeOf path) = none ↔ (nodes p).find (nameOf path) = none := by
    rw [placeOf, h.tree_below hwalk, Option.map_eq_none_iff]
  constructor
  · intro hmakes
    exact ⟨(h.object_isDir hp).mp hmakes.isDir, (h.object_grants hplain hp _).mp hmakes.grants,
      hat.nameOk, hfree.mp hmakes.free⟩
  · intro hallowed
    exact ⟨hat, (h.object_isDir hp).mpr hallowed.type,
      (h.object_grants hplain hp _).mpr hallowed.grants, hfree.mpr hallowed.absent⟩

/-- A new inode is not the inode of an object of the tree. -/
theorem Sound.fresh_ino (h : Sound L v nodes) {ino : Nat} (hfresh : ¬Live L v.view ino) {q : Names}
    {a : Object} (ha : treeOf v q = some a) : a.ino ≠ ino := by
  obtain ⟨j, hj, rfl⟩ := treeOf_eq_some.mp ha
  have hlive := h.walk_live hj
  rw [h.object_ino hlive]
  rintro rfl
  exact hfresh hlive

/-- A creation puts a new object at its place, or fails and leaves the tree. -/
theorem Sound.makeAt_run (h : Sound L v nodes) (hplain : Plain L v.view) (hcred : cred.Fits)
    (isDir : Bool) (path : List UInt8) (mode : Nat) :
    ∃ r v' nodes', Fuse.makeAt isDir path mode cred v = (r, v') ∧ StaysServed L v v' nodes' ∧
      MakeAnswer cred (treeOf v) isDir path mode r (treeOf v') := by
  rcases (h.asks_parentOf path).cases with ⟨⟨p, name⟩, hparent⟩ | ⟨e, hparent⟩
  swap
  · refine ⟨_, v, nodes, Eff.bind_error hparent, StaysServed.refl h hplain,
      MakeAnswer.refused e (fun dir hmakes => ?_)⟩
    obtain ⟨k, hok, -⟩ := h.parentOf_of_parentAt hplain hmakes.parent
    rw [hparent] at hok
    cases hok
  obtain ⟨rfl, hwalk, hat⟩ := (h.parentOf_eq_ok hplain).mp (by rw [hparent])
  have hp := h.walk_live hwalk
  have hiff := h.makesAt_iff hplain hwalk hat
  obtain ⟨r, V', nodes', hdoes, hinv, hout⟩ := h.inventory.makeNode (D := D) h.valid hp isDir
    (nameOf path) (mode % 2 ^ 16) hcred
  obtain ⟨v', hrun, hmounted, rfl, hcore⟩ := hdoes.run h.valid h.mounted rfl
  have h' : Sound L v' nodes' := ⟨h.valid, hmounted, hinv⟩
  refine ⟨r, v', nodes', (Eff.bind_ok hparent).trans hrun, ?_⟩
  -- the answer of a creation whose checks pass
  have hanswer : MakeAllowed v.view (nodes p) (v.view.inode p) (nameOf path) cred →
      (∀ i, r = .ok i → (v'.view.inode i).aceCount = 0 ∧ (v'.view.inode i).aclOverflowCount = 0) ∧
        ∀ e, r = .error e → e = .status .NdiskFull ∨ e = .status .NoutOfMemory := by
    intro hallowed
    obtain ⟨r', V'', hdoes', hcounts, hfull⟩ := h.inventory.makeNode_plain (D := D) h.valid hp
      (hplain.inherits_nothing hp isDir) hcred hallowed
    obtain ⟨w, hrun', -, rfl, -⟩ := hdoes'.run h.valid h.mounted rfl
    rw [hrun] at hrun'
    cases hrun'
    exact ⟨hcounts, hfull⟩
  cases hout with
  | failed e leaked hsame =>
      have hplain' : Plain L v'.view := @Plain.of_kept D _ L v v' nodes nodes' hplain (fun j hj => by
        have hold := (live_congr hsame.inodeBit).mp hj
        exact ⟨hold, hsame.kept j hold⟩)
      refine ⟨⟨h', hplain', hcore⟩, ?_⟩
      rw [h.tree_same h' hsame.kept hsame.find]
      by_cases hmakes : MakesAt (treeOf v) cred path (objectOf v p)
      · refine MakeAnswer.full e _ hmakes ?_
        rcases (hanswer (hiff.mp hmakes)).2 _ rfl with he | he
        · cases he
          rfl
        · cases he
          rfl
      · refine MakeAnswer.refused e (fun dir hdir => hmakes ?_)
        rwa [ParentAt.unique hdir.parent hat] at hdir
  | made i hstarts hmade =>
      have hallowed : MakeAllowed v.view (nodes p) (v.view.inode p) (nameOf path) cred :=
        ⟨hstarts.type, hstarts.grants, hstarts.nameOk, hstarts.absent⟩
      have hclear : v.view.inodeBit i = false := (firstClear_some hmade.first).2.2
      have hnotlive : ¬Live L v.view i := fun hi => by
        rw [hi.set] at hclear
        cases hclear
      refine ⟨⟨h', fun j hj => ?_, hcore⟩, ?_⟩
      · by_cases hji : j = i
        · subst hji
          exact (hanswer hallowed).1 j rfl
        · have hold : Live L v.view j := by
            refine ⟨hj.ne_zero, hj.lt, ?_⟩
            have hset := hj.set
            rwa [hmade.inodeBit, Function.update_of_ne hji] at hset
          have hkept := (hmade.kept j hold).core
          obtain ⟨hcount, hover⟩ := hplain j hold
          have hcountCore := congrArg (fun z : Inode => z.aceCount) hkept
          have hoverCore := congrArg (fun z : Inode => z.aclOverflowCount) hkept
          exact ⟨hcountCore.trans hcount, hoverCore.trans hover⟩
      · rw [h.tree_made h' hwalk hstarts hmade]
        exact MakeAnswer.made i _ (hiff.mpr hallowed) (fun q a => h.fresh_ino hnotlive)

/-- A request answers what it means, and the volume stays sound. -/
def Meets (L : Layout) (v : Volume D) (cred : Cred) (q : FuseCall) : Prop :=
  ∃ a v' nodes', q.exec cred v = (.ok a, v') ∧ StaysServed L v v' nodes' ∧
    TreeStep L.blockSize cred (treeOf v) q a (treeOf v')

/-- There is always a number for a new inode. -/
theorem Sound.fresh_count (h : Sound L v nodes) (q : Names) (a : Object)
    (ha : treeOf v q = some a) : a.ino ≠ L.inodeCount :=
  h.fresh_ino (fun hlive => Nat.lt_irrefl _ hlive.lt) ha

theorem Sound.meets_mkdir (h : Sound L v nodes) (hplain : Plain L v.view) (hcred : cred.Fits)
    (path : List UInt8) (mode : Nat) : Meets L v cred (.mkdir path mode) := by
  obtain ⟨r, v', nodes', hrun, hstays, hanswer⟩ := h.makeAt_run hplain hcred true path mode
  have hok : ∀ ino, r = .ok ino → (FuseCall.mkdir path mode).exec cred v = (.ok ⟨0, .nothing⟩, v') := by
    rintro ino rfl
    exact numbered_run (reply_ok (Eff.bind_ok hrun))
  have herror : ∀ e, r = .error (.status e) →
      (FuseCall.mkdir path mode).exec cred v = (.ok ⟨nyfsStatusToErrno e, .nothing⟩, v') := by
    rintro e rfl
    exact numbered_run (reply_error (Eff.bind_error hrun))
  generalize htree : treeOf v' = t' at hanswer
  cases hanswer with
  | made ino dir hmakes hino =>
      refine ⟨_, v', nodes', hok ino rfl, hstays, ?_⟩
      rw [htree]
      exact TreeStep.served (Serves.mkdir hmakes hino) le_rfl
  | refused e hno =>
      refine ⟨_, v', nodes', herror e rfl, hstays, ?_⟩
      rw [htree]
      refine TreeStep.refused (fun a t' hserves => ?_) (nyfsStatusToErrno_neg e)
      cases hserves with
      | mkdir hmakes => exact hno _ hmakes
  | full e dir hmakes hfull =>
      refine ⟨_, v', nodes', herror e rfl, hstays, ?_⟩
      rw [htree, hfull]
      exact TreeStep.full (Serves.mkdir hmakes h.fresh_count) trivial

theorem Sound.meets_create (h : Sound L v nodes) (hplain : Plain L v.view) (hcred : cred.Fits)
    (path : List UInt8) (mode : Nat) : Meets L v cred (.create path mode) := by
  obtain ⟨r, v', nodes', hrun, hstays, hanswer⟩ := h.makeAt_run hplain hcred false path mode
  have hok : ∀ ino, r = .ok ino →
      (FuseCall.create path mode).exec cred v = (.ok ⟨0, .handle ino⟩, v') := by
    rintro ino rfl
    exact valued_ok _ hrun
  have herror : ∀ e, r = .error (.status e) →
      (FuseCall.create path mode).exec cred v = (.ok ⟨nyfsStatusToErrno e, .nothing⟩, v') := by
    rintro e rfl
    exact valued_error _ hrun
  generalize htree : treeOf v' = t' at hanswer
  cases hanswer with
  | made ino dir hmakes hino =>
      refine ⟨_, v', nodes', hok ino rfl, hstays, ?_⟩
      rw [htree]
      exact TreeStep.served (Serves.create hmakes hino) le_rfl
  | refused e hno =>
      refine ⟨_, v', nodes', herror e rfl, hstays, ?_⟩
      rw [htree]
      refine TreeStep.refused (fun a t' hserves => ?_) (nyfsStatusToErrno_neg e)
      cases hserves with
      | create hmakes => exact hno _ hmakes
  | full e dir hmakes hfull =>
      refine ⟨_, v', nodes', herror e rfl, hstays, ?_⟩
      rw [htree, hfull]
      exact TreeStep.full (Serves.create hmakes h.fresh_count) trivial

/-! ## Removing -/

theorem Sound.readDirInode_ok_iff (h : Sound L v nodes) (hi : Live L v.view i) {x : Inode} :
    (readDirInode i v).1 = .ok x ↔ x = v.view.inode i ∧ (v.view.inode i).type = nyfsInoTypeDir := by
  rw [readDirInode_eq_ok, h.readInode_ok hi]
  constructor
  · rintro ⟨hx, htype⟩
    obtain rfl := Except.ok.inj hx
    exact ⟨rfl, htype⟩
  · rintro ⟨rfl, htype⟩
    exact ⟨rfl, htype⟩

theorem Sound.checkAccess_ok_iff (h : Sound L v nodes) (hi : Live L v.view i) (mask : Nat)
    (u : Unit) :
    (checkAccess (v.view.inode i) cred mask v).1 = .ok u ↔ Grants v.view (v.view.inode i) cred mask := by
  obtain ⟨w, hrun, -⟩ := ((h.inventory.holds i hi).does_checkAccess (D := D) h.valid cred mask).run
    h.valid h.mounted rfl
  rw [hrun]
  split
  next hgrants => exact iff_of_true rfl hgrants
  next hdenied => exact iff_of_false (fun hok => by cases hok) hdenied

theorem Sound.dirhashLookup_ok_iff (h : Sound L v nodes) (hi : Live L v.view i)
    (htype : (v.view.inode i).type = nyfsInoTypeDir) {name : List UInt8} {found : Nat × Nat} :
    (dirhashLookup (v.view.inode i) name v).1 = .ok found ↔
      NameOk name ∧ (nodes i).find name = some found := by
  obtain ⟨w, hrun, -⟩ := ((h.inventory.holds i hi).does_lookup (D := D) h.valid htype name).run
    h.valid h.mounted rfl
  rw [hrun]
  rcases (nodes i).lookup_cases name with ⟨e, he, hno⟩ | ⟨found', hok, hname, hfind⟩
  · rw [he]
    exact iff_of_false (fun hok => by cases hok)
      (fun hyes => hno ⟨hyes.1, by rw [hyes.2]; exact Option.some_ne_none _⟩)
  · rw [hok, hfind]
    exact ⟨fun heq => ⟨hname, congrArg some (Except.ok.inj heq)⟩,
      fun heq => congrArg Except.ok (Option.some.inj heq.2)⟩

/-- A removal that succeeds has passed its checks. -/
theorem Sound.removeNode_starts (h : Sound L v nodes) {p : Nat} (hp : Live L v.view p)
    {name : List UInt8} {isDir : Bool}
    (hrun : (removeNode p name cred (some isDir) v).1 = .ok ()) :
    ∃ t type, RemoveStarts v.view nodes p name cred (some isDir) t type := by
  unfold removeNode at hrun
  rw [reads_requireWritable.bind_eq_ok] at hrun
  obtain ⟨_, -, hrun⟩ := hrun
  rw [(reads_readDirInode p).bind_eq_ok] at hrun
  obtain ⟨dir, hdir, hrun⟩ := hrun
  obtain ⟨rfl, htype⟩ := (h.readDirInode_ok_iff hp).mp hdir
  rw [(reads_checkAccess _ cred _).bind_eq_ok] at hrun
  obtain ⟨u, haccess, hrun⟩ := hrun
  have hgrants := (h.checkAccess_ok_iff hp _ u).mp haccess
  rw [(reads_dirhashLookup _ name).bind_eq_ok] at hrun
  obtain ⟨⟨t, type⟩, hlookup, hrun⟩ := hrun
  obtain ⟨hname, hfind⟩ := (h.dirhashLookup_ok_iff hp htype).mp hlookup
  have ht := (h.inventory.target_of_find hp hfind).1
  dsimp only at hrun
  rw [(reads_readInode t).bind_eq_ok] at hrun
  obtain ⟨x, hx, hrun⟩ := hrun
  rw [h.readInode_ok ht] at hx
  obtain rfl := Except.ok.inj hx
  refine ⟨t, type, htype, hgrants, hname, hfind, fun hyes => ?_, fun hno hdir' => ?_, fun hbusy => ?_⟩
  · by_contra hnot
    rw [if_pos ⟨hyes, hnot⟩] at hrun
    cases hrun
  · rw [if_neg (fun hbad => hbad.2 hdir'), if_pos ⟨hno, hdir'⟩] at hrun
    cases hrun
  · split at hrun
    next => cases hrun
    split at hrun
    next => cases hrun
    next => cases hrun

/-- A node without names has no records. -/
theorem Node.find_none_iff {n : Node} : (∀ name, n.find name = none) ↔ n.records = [] := by
  constructor
  · intro hnone
    refine List.eq_nil_iff_forall_not_mem.mpr (fun r hr => ?_)
    have hfind := Option.map_eq_none_iff.mp (hnone r.name)
    rw [recordOf, List.find?_eq_none] at hfind
    exact hfind r hr (by simp)
  · intro hnil name
    rw [Node.find, recordOf, show entries n.buckets = [] from hnil]
    rfl

/-- What a removal is asked for on the volume is what it is asked for on the tree. -/
theorem Sound.removesAt_iff (h : Sound L v nodes) (hplain : Plain L v.view) {path : List UInt8}
    {p : Nat} (hwalk : walk (edgeOf v) nyfsRootIno (dirOf path) = some p)
    (hat : ParentAt (treeOf v) cred path (objectOf v p)) (isDir : Bool) :
    (∃ o, RemovesAt (treeOf v) cred path isDir (objectOf v p) o) ↔
      ∃ t type, RemoveStarts v.view nodes p (nameOf path) cred (some isDir) t type := by
  have hp := h.walk_live hwalk
  have hbelow := h.tree_below hwalk (nameOf path)
  -- what stands at the place, and that it has nothing below
  have htarget : ∀ {t type : Nat}, (nodes p).find (nameOf path) = some (t, type) →
      treeOf v (placeOf path) = some (objectOf v t) ∧ Live L v.view t ∧
        (Empty (treeOf v) (placeOf path) ↔ (nodes t).records = []) := by
    intro t type hfind
    rw [hfind] at hbelow
    have ht : walk (edgeOf v) nyfsRootIno (placeOf path) = some t := by
      rw [placeOf, walk_snoc, hwalk, Option.bind_some, h.edgeOf_eq hp, hfind]
      rfl
    refine ⟨hbelow, h.walk_live ht, ?_⟩
    rw [← Node.find_none_iff]
    refine forall_congr' (fun name => ?_)
    rw [h.tree_below ht, Option.map_eq_none_iff]
  constructor
  · rintro ⟨o, hrem⟩
    have hobject := hrem.object
    rw [placeOf, hbelow, Option.map_eq_some_iff] at hobject
    obtain ⟨⟨t, type⟩, hfind, rfl⟩ := hobject
    obtain ⟨-, ht, hempty⟩ := htarget hfind
    have hkind := hrem.kind
    refine ⟨t, type, (h.object_isDir hp).mp hrem.parentIsDir,
      (h.object_grants hplain hp _).mp hrem.grants, hat.nameOk, hfind, ?_, ?_, ?_⟩
    · intro hyes
      refine (h.object_isDir ht).mp (hkind.trans ?_)
      exact Option.some.inj hyes
    · intro hno hdir
      rw [(h.object_isDir ht).mpr hdir, Option.some.inj hno] at hkind
      cases hkind
    · rintro ⟨hdir, hpos⟩
      have hisDir : isDir = true := by
        rw [← hkind, (h.object_isDir ht).mpr hdir]
      have hnil := hempty.mp (hrem.empty hisDir)
      rw [((h.inventory.holds t ht).dir hdir).2, hnil] at hpos
      exact Nat.lt_irrefl 0 hpos
  · rintro ⟨t, type, hstarts⟩
    obtain ⟨hobject, ht, hempty⟩ := htarget hstarts.find
    refine ⟨objectOf v t, hat, (h.object_isDir hp).mpr hstarts.dir,
      (h.object_grants hplain hp _).mpr hstarts.grants, hobject, ?_, ?_⟩
    · cases isDir with
      | true => exact (h.object_isDir ht).mpr (hstarts.isDir rfl)
      | false => exact Bool.eq_false_iff.mpr (mt (h.object_isDir ht).mp (hstarts.isFile rfl))
    · exact fun _ => hempty.mpr ((h.inventory.holds t ht).records_eq_nil hstarts.empty)

/-- The common part of {lit}`op_unlink` and {lit}`op_rmdir`. -/
def removeReply (isDir : Bool) (path : List UInt8) (cred : Cred) : NyfsM D Int :=
  reply do
    let (parentIno, name) ← parentOf path cred
    opRemove parentIno name cred isDir
    pure 0

/-- A removal takes an object away, or fails and leaves the tree. -/
theorem Sound.removeReply_run (h : Sound L v nodes) (hplain : Plain L v.view) (isDir : Bool)
    (path : List UInt8) :
    ∃ n v' nodes', removeReply isDir path cred v = (.ok n, v') ∧ StaysServed L v v' nodes' ∧
      ((n = 0 ∧ (∃ dir o, RemovesAt (treeOf v) cred path isDir dir o) ∧
          treeOf v' = cut (placeOf path) (treeOf v)) ∨
        (n < 0 ∧ (∀ dir o, ¬RemovesAt (treeOf v) cred path isDir dir o) ∧ treeOf v' = treeOf v)) := by
  rcases (h.asks_parentOf path).cases with ⟨⟨p, name⟩, hparent⟩ | ⟨e, hparent⟩
  swap
  · refine ⟨_, v, nodes, reply_error (Eff.bind_error hparent), StaysServed.refl h hplain,
      Or.inr ⟨nyfsStatusToErrno_neg e, fun dir o hrem => ?_, rfl⟩⟩
    obtain ⟨k, hok, -⟩ := h.parentOf_of_parentAt hplain hrem.parent
    rw [hparent] at hok
    cases hok
  obtain ⟨rfl, hwalk, hat⟩ := (h.parentOf_eq_ok hplain).mp (by rw [hparent])
  have hp := h.walk_live hwalk
  have hiff := h.removesAt_iff hplain hwalk hat isDir
  obtain ⟨r, V', nodes', hdoes, hinv, hout⟩ := h.inventory.removeNode (D := D) h.valid hp
    (nameOf path) cred (some isDir)
  obtain ⟨v', hrun, hmounted, rfl, hcore⟩ := hdoes.run h.valid h.mounted rfl
  have h' : Sound L v' nodes' := ⟨h.valid, hmounted, hinv⟩
  by_cases hstarts : ∃ t type, RemoveStarts v.view nodes p (nameOf path) cred (some isDir) t type
  · obtain ⟨o, hrem⟩ := hiff.mpr hstarts
    obtain ⟨t, type, hstarts⟩ := hstarts
    obtain ⟨V'', nodes'', hdoes', -⟩ := h.inventory.removeNode_starts (D := D) h.valid hp hstarts
    obtain ⟨w, hrun', -⟩ := hdoes'.run h.valid h.mounted rfl
    obtain rfl : r = .ok () := by
      rw [hrun] at hrun'
      exact (Prod.mk.inj hrun').1
    refine ⟨0, v', nodes', reply_ok ((Eff.bind_ok hparent).trans (Eff.bind_ok hrun)), ⟨h', ?_, hcore⟩,
      Or.inl ⟨rfl, ⟨_, o, hrem⟩, h.tree_removed h' hwalk hout⟩⟩
    cases hout with
    | removed t type hfind ht hbit hkept =>
        refine @Plain.of_kept D _ L v v' nodes nodes' hplain (fun j hj => ?_)
        obtain ⟨hold, hne⟩ := (live_drop hbit).mp hj
        exact ⟨hold, hkept j hold hne⟩
  · have hno : ∀ dir o, ¬RemovesAt (treeOf v) cred path isDir dir o := by
      intro dir o hrem
      rw [ParentAt.unique hrem.parent hat] at hrem
      exact hstarts (hiff.mp ⟨o, hrem⟩)
    cases hout with
    | failed e hview hnodes =>
        refine ⟨_, v', nodes', reply_error ((Eff.bind_ok hparent).trans (Eff.bind_error hrun)), ⟨h', ?_, hcore⟩,
          Or.inr ⟨nyfsStatusToErrno_neg e, hno, ?_⟩⟩
        · rw [hview]
          exact hplain
        · refine h.tree_same h' (fun j hj => ?_) (fun j hj => by rw [hnodes])
          rw [hview, hnodes]
          exact Kept.refl hj
    | removed => exact absurd (h.removeNode_starts hp (by rw [hrun])) hstarts

theorem Sound.meets_unlink (h : Sound L v nodes) (hplain : Plain L v.view) (path : List UInt8) :
    Meets L v cred (.unlink path) := by
  obtain ⟨n, v', nodes', hrun, hstays, hanswer⟩ := h.removeReply_run hplain false path
  refine ⟨_, v', nodes', numbered_run hrun, hstays, ?_⟩
  rcases hanswer with ⟨rfl, ⟨dir, o, hrem⟩, htree⟩ | ⟨hneg, hno, htree⟩
  · rw [htree]
    exact TreeStep.served (Serves.unlink hrem) le_rfl
  · rw [htree]
    refine TreeStep.refused (fun n t' hserves => ?_) hneg
    cases hserves with
    | unlink hrem => exact hno _ _ hrem

theorem Sound.meets_rmdir (h : Sound L v nodes) (hplain : Plain L v.view) (path : List UInt8) :
    Meets L v cred (.rmdir path) := by
  obtain ⟨n, v', nodes', hrun, hstays, hanswer⟩ := h.removeReply_run hplain true path
  refine ⟨_, v', nodes', numbered_run hrun, hstays, ?_⟩
  rcases hanswer with ⟨rfl, ⟨dir, o, hrem⟩, htree⟩ | ⟨hneg, hno, htree⟩
  · rw [htree]
    exact TreeStep.served (Serves.rmdir hrem) le_rfl
  · rw [htree]
    refine TreeStep.refused (fun n t' hserves => ?_) hneg
    cases hserves with
    | rmdir hrem => exact hno _ _ hrem

/-! ## Renaming -/

/-- The checks of a rename before the names are compared. -/
structure RenameChecks (V : View) (nodes : Nat → Node) (o : Nat) (oldName : List UInt8) (q : Nat)
    (cred : Cred) (found : Nat × Nat) : Prop where
  oldType : (V.inode o).type = nyfsInoTypeDir
  newType : (V.inode q).type = nyfsInoTypeDir
  oldGrants : Grants V (V.inode o) cred nyfsAceDeleteChild
  newGrants : Grants V (V.inode q) cred nyfsAceWriteData
  oldNameOk : NameOk oldName
  find : (nodes o).find oldName = some found

theorem RenameStarts.checks {V : View} {o q : Nat} {oldName newName : List UInt8} {found : Nat × Nat}
    (h : RenameStarts V nodes o oldName q newName cred found) :
    RenameChecks V nodes o oldName q cred found :=
  ⟨h.oldType, h.newType, h.oldGrants, h.newGrants, h.oldNameOk, h.find⟩

theorem Sound.requireWritable_ok (h : Sound L v nodes) : (requireWritable v).1 = .ok () := by
  obtain ⟨w, hrun, -⟩ := (does_requireWritable (D := D) (L := L) (V := v.view)).run h.valid h.mounted rfl
  rw [hrun]

/-- Two equal names in one directory are renamed when the checks pass. -/
theorem Sound.renameNode_same (h : Sound L v nodes) {o : Nat} (ho : Live L v.view o)
    {name : List UInt8} :
    (renameNode o name o name cred v).1 = .ok () ↔
      ∃ found, RenameChecks v.view nodes o name o cred found := by
  unfold renameNode
  rw [reads_requireWritable.bind_eq_ok]
  constructor
  · rintro ⟨_, -, hrun⟩
    rw [(reads_readDirInode o).bind_eq_ok] at hrun
    obtain ⟨dir, hdir, hrun⟩ := hrun
    obtain ⟨rfl, htype⟩ := (h.readDirInode_ok_iff ho).mp hdir
    rw [if_pos rfl, Eff.bind_ok (Eff.pure_run _ _), (reads_checkAccess _ cred _).bind_eq_ok] at hrun
    obtain ⟨u, haccess, hrun⟩ := hrun
    rw [(reads_checkAccess _ cred _).bind_eq_ok] at hrun
    obtain ⟨u', haccess', hrun⟩ := hrun
    rw [(reads_dirhashLookup _ name).bind_eq_ok] at hrun
    obtain ⟨found, hlookup, -⟩ := hrun
    obtain ⟨hname, hfind⟩ := (h.dirhashLookup_ok_iff ho htype).mp hlookup
    exact ⟨found, htype, htype, (h.checkAccess_ok_iff ho _ u).mp haccess,
      (h.checkAccess_ok_iff ho _ u').mp haccess', hname, hfind⟩
  · rintro ⟨found, hchecks⟩
    refine ⟨(), h.requireWritable_ok, (reads_readDirInode o).bind_eq_ok.mpr
      ⟨_, (h.readDirInode_ok_iff ho).mpr ⟨rfl, hchecks.oldType⟩, ?_⟩⟩
    rw [if_pos rfl, Eff.bind_ok (Eff.pure_run _ _)]
    refine (reads_checkAccess _ cred _).bind_eq_ok.mpr ⟨(),
      (h.checkAccess_ok_iff ho _ _).mpr hchecks.oldGrants, ?_⟩
    refine (reads_checkAccess _ cred _).bind_eq_ok.mpr ⟨(),
      (h.checkAccess_ok_iff ho _ _).mpr hchecks.newGrants, ?_⟩
    refine (reads_dirhashLookup _ name).bind_eq_ok.mpr ⟨found,
      (h.dirhashLookup_ok_iff ho hchecks.oldType).mpr ⟨hchecks.oldNameOk, hchecks.find⟩, ?_⟩
    dsimp only
    rw [if_pos ⟨rfl, rfl⟩]
    rfl

/-- The directories and the object that a rename finds are those of the tree. -/
theorem Sound.renamesAt_iff (h : Sound L v nodes) (hplain : Plain L v.view)
    {oldPath newPath : List UInt8} {o q : Nat} {a : Object}
    (ho : walk (edgeOf v) nyfsRootIno (dirOf oldPath) = some o)
    (hat : ParentAt (treeOf v) cred oldPath (objectOf v o))
    (hq : walk (edgeOf v) nyfsRootIno (dirOf newPath) = some q)
    (hat' : ParentAt (treeOf v) cred newPath (objectOf v q)) :
    RenamesAt (treeOf v) cred oldPath newPath (objectOf v o) (objectOf v q) a ↔
      ∃ found, RenameChecks v.view nodes o (nameOf oldPath) q cred found ∧ objectOf v found.1 = a := by
  have hlive := h.walk_live ho
  have hlive' := h.walk_live hq
  have hbelow := h.tree_below ho (nameOf oldPath)
  constructor
  · intro hren
    have hobject := hren.object
    rw [placeOf, hbelow, Option.map_eq_some_iff] at hobject
    obtain ⟨found, hfind, rfl⟩ := hobject
    exact ⟨found, ⟨(h.object_isDir hlive).mp hren.isDir, (h.object_isDir hlive').mp hren.isDir',
      (h.object_grants hplain hlive _).mp hren.grants,
      (h.object_grants hplain hlive' _).mp hren.grants', hat.nameOk, hfind⟩, rfl⟩
  · rintro ⟨found, hchecks, rfl⟩
    refine ⟨hat, hat', (h.object_isDir hlive).mpr hchecks.oldType,
      (h.object_isDir hlive').mpr hchecks.newType,
      (h.object_grants hplain hlive _).mpr hchecks.oldGrants,
      (h.object_grants hplain hlive' _).mpr hchecks.newGrants, ?_⟩
    rw [placeOf, hbelow, hchecks.find]
    rfl

/-- Two places are one when the directories and the names are. -/
theorem Sound.placeOf_eq_iff (h : Sound L v nodes) {oldPath newPath : List UInt8} {o q : Nat}
    (ho : walk (edgeOf v) nyfsRootIno (dirOf oldPath) = some o)
    (hq : walk (edgeOf v) nyfsRootIno (dirOf newPath) = some q) :
    placeOf oldPath = placeOf newPath ↔ o = q ∧ nameOf oldPath = nameOf newPath := by
  rw [placeOf, placeOf]
  constructor
  · intro heq
    obtain ⟨hdir, hname⟩ := List.append_inj' heq rfl
    rw [hdir, hq] at ho
    exact ⟨(Option.some.inj ho).symm, (List.cons.inj hname).1⟩
  · rintro ⟨rfl, hname⟩
    rw [h.rooted.walk_inj ho hq, hname]

/-- A rename that passes its checks is one that the tree grants. -/
theorem Sound.serves_of_renameStarts (h : Sound L v nodes) (hplain : Plain L v.view)
    {oldPath newPath : List UInt8} {o q : Nat} {found : Nat × Nat}
    (ho : walk (edgeOf v) nyfsRootIno (dirOf oldPath) = some o)
    (hat : ParentAt (treeOf v) cred oldPath (objectOf v o))
    (hq : walk (edgeOf v) nyfsRootIno (dirOf newPath) = some q)
    (hat' : ParentAt (treeOf v) cred newPath (objectOf v q))
    (hstarts : RenameStarts v.view nodes o (nameOf oldPath) q (nameOf newPath) cred found) :
    Serves L.blockSize cred (treeOf v) (.rename oldPath newPath 0) ⟨0, .nothing⟩
      (NameTree.move (placeOf oldPath) (placeOf newPath) (treeOf v)) := by
  obtain ⟨ht, -, htype, -⟩ := h.inventory.target_of_find (h.walk_live ho) hstarts.find
  refine Serves.rename ((h.renamesAt_iff hplain ho hat hq hat').mpr ⟨found, hstarts.checks, rfl⟩) ?_ ?_
  · rintro ⟨hdir, hino⟩
    rw [h.object_ino ht, h.object_ino (h.walk_live hq)] at hino
    refine hstarts.notSelf ⟨?_, hino⟩
    rw [htype, direntType, if_pos ((h.object_isDir ht).mp hdir)]
  · rw [placeOf, h.tree_below hq, hstarts.absent]
    rfl

/-- A rename that the tree grants passes its checks. -/
theorem Sound.renameStarts_of_renamesAt (h : Sound L v nodes) (hplain : Plain L v.view)
    {oldPath newPath : List UInt8} {o q : Nat} {a : Object}
    (ho : walk (edgeOf v) nyfsRootIno (dirOf oldPath) = some o)
    (hat : ParentAt (treeOf v) cred oldPath (objectOf v o))
    (hq : walk (edgeOf v) nyfsRootIno (dirOf newPath) = some q)
    (hat' : ParentAt (treeOf v) cred newPath (objectOf v q))
    (hren : RenamesAt (treeOf v) cred oldPath newPath (objectOf v o) (objectOf v q) a)
    (hself : ¬(a.isDir = true ∧ a.ino = (objectOf v q).ino))
    (hfree : treeOf v (placeOf newPath) = none) :
    ∃ found, RenameStarts v.view nodes o (nameOf oldPath) q (nameOf newPath) cred found := by
  obtain ⟨⟨t, type⟩, hchecks, rfl⟩ := (h.renamesAt_iff hplain ho hat hq hat').mp hren
  obtain ⟨ht, -, htype, -⟩ := h.inventory.target_of_find (h.walk_live ho) hchecks.find
  have hobject := hren.object
  rw [placeOf, h.tree_below hq, Option.map_eq_none_iff] at hfree
  refine ⟨(t, type), hchecks.oldType, hchecks.newType, hchecks.oldGrants, hchecks.newGrants,
    hchecks.oldNameOk, hchecks.find, ?_, ?_, hat'.nameOk, hfree⟩
  · rintro ⟨rfl, hname⟩
    rw [← hname, hchecks.find] at hfree
    cases hfree
  · rintro ⟨hdir, hino⟩
    refine hself ⟨?_, ?_⟩
    · refine (h.object_isDir ht).mpr ?_
      rw [htype, direntType] at hdir
      by_contra hnot
      rw [if_neg hnot] at hdir
      cases hdir
    · rw [h.object_ino ht, h.object_ino (h.walk_live hq)]
      exact hino

/-- Without the directory of one of the two names nothing is renamed. -/
theorem Fuse.Serves.rename_parents {bs : Nat} {t t' : FileTree} {oldPath newPath : List UInt8}
    {flags : Nat} {a : Response} (hserves : Serves bs cred t (.rename oldPath newPath flags) a t') :
    flags = 0 ∧ ∃ dir dir' o, RenamesAt t cred oldPath newPath dir dir' o := by
  cases hserves with
  | renameSame hren => exact ⟨rfl, _, _, _, hren⟩
  | rename hren => exact ⟨rfl, _, _, _, hren⟩

theorem Sound.meets_rename (h : Sound L v nodes) (hplain : Plain L v.view)
    (oldPath newPath : List UInt8) (flags : Nat) :
    Meets L v cred (.rename oldPath newPath flags) := by
  by_cases hflags : flags ≠ 0
  · refine ⟨_, v, nodes, numbered_run (n := -Fuse.enotsup) ?_, StaysServed.refl h hplain,
      TreeStep.refused (fun n t' hserves => hflags hserves.rename_parents.1) (by decide)⟩
    rw [Fuse.opRename, if_pos hflags]
    rfl
  obtain rfl : flags = 0 := not_not.mp hflags
  have hexec : ∀ {n : Int} {w : Volume D}, reply (do
      let (oldParentIno, oldName) ← parentOf oldPath cred
      let (newParentIno, newName) ← parentOf newPath cred
      Nyfs.opRename oldParentIno oldName newParentIno newName cred
      pure 0) v = (.ok n, w) →
      (FuseCall.rename oldPath newPath 0).exec cred v = (.ok ⟨n, .nothing⟩, w) :=
    fun hrun => numbered_run hrun
  rcases (h.asks_parentOf oldPath).cases with ⟨⟨o, name⟩, hold⟩ | ⟨e, hold⟩
  swap
  · refine ⟨_, v, nodes, hexec (reply_error (Eff.bind_error hold)), StaysServed.refl h hplain,
      TreeStep.refused (fun n t' hserves => ?_) (nyfsStatusToErrno_neg e)⟩
    obtain ⟨-, _, _, _, hren⟩ := hserves.rename_parents
    obtain ⟨k, hok, -⟩ := h.parentOf_of_parentAt hplain hren.parent
    rw [hold] at hok
    cases hok
  obtain ⟨rfl, ho, hat⟩ := (h.parentOf_eq_ok hplain).mp (by rw [hold])
  rcases (h.asks_parentOf newPath).cases with ⟨⟨q, name⟩, hnew⟩ | ⟨e, hnew⟩
  swap
  · refine ⟨_, v, nodes, hexec (reply_error ((Eff.bind_ok hold).trans (Eff.bind_error hnew))),
      StaysServed.refl h hplain, TreeStep.refused (fun n t' hserves => ?_) (nyfsStatusToErrno_neg e)⟩
    obtain ⟨-, _, _, _, hren⟩ := hserves.rename_parents
    obtain ⟨k, hok, -⟩ := h.parentOf_of_parentAt hplain hren.parent'
    rw [hnew] at hok
    cases hok
  obtain ⟨rfl, hq, hat'⟩ := (h.parentOf_eq_ok hplain).mp (by rw [hnew])
  obtain ⟨r, V', nodes', hdoes, hinv, hout⟩ := h.inventory.renameNode (D := D) h.valid
    (h.walk_live ho) (h.walk_live hq) (nameOf oldPath) (nameOf newPath) cred
  obtain ⟨v', hrun, hmounted, rfl, hcore⟩ := hdoes.run h.valid h.mounted rfl
  have h' : Sound L v' nodes' := ⟨h.valid, hmounted, hinv⟩
  have hsteadyPlain : Steady L v.view nodes v'.view nodes' → Plain L v'.view := fun hsteady =>
    @Plain.of_kept D _ L v v' nodes nodes' hplain (fun j hj => by
      have hlive := (live_congr hsteady.inodeBit).mp hj
      exact ⟨hlive, hsteady.kept j hlive⟩)
  have hsame : v'.view = v.view → nodes' = nodes → Steady L v.view nodes v'.view nodes' := by
    intro hview hnodes
    rw [hview, hnodes]
    exact ⟨rfl, fun j hj => Kept.refl hj⟩
  have hok : r = .ok () → (FuseCall.rename oldPath newPath 0).exec cred v = (.ok ⟨0, .nothing⟩, v') := by
    rintro rfl
    exact hexec (reply_ok ((Eff.bind_ok hold).trans ((Eff.bind_ok hnew).trans
      (Eff.bind_ok hrun))))
  have herror : ∀ e, r = .error (.status e) →
      (FuseCall.rename oldPath newPath 0).exec cred v =
        (.ok ⟨nyfsStatusToErrno e, .nothing⟩, v') := by
    rintro e rfl
    exact hexec (reply_error ((Eff.bind_ok hold).trans ((Eff.bind_ok hnew).trans
      (Eff.bind_error hrun))))
  cases hout with
  | failed e hno hview hnodes =>
      have hsteady := hsame hview hnodes
      refine ⟨_, v', nodes', herror e rfl, ⟨h', hsteadyPlain hsteady, hcore⟩, ?_⟩
      rw [h.tree_same h' hsteady.kept (fun j _ => by rw [hnodes])]
      refine TreeStep.refused (fun n t' hserves => ?_) (nyfsStatusToErrno_neg e)
      cases hserves with
      | renameSame hren hplace =>
          obtain ⟨rfl, hname⟩ := (h.placeOf_eq_iff ho hq).mp hplace
          rw [ParentAt.unique hren.parent hat, ParentAt.unique hren.parent' hat'] at hren
          obtain ⟨found, hchecks, -⟩ := (h.renamesAt_iff hplain ho hat hq hat').mp hren
          have hgood := (h.renameNode_same (h.walk_live ho)).mpr ⟨found, hchecks⟩
          rw [hname] at hrun hgood
          rw [hrun] at hgood
          cases hgood
      | rename hren hself hfree =>
          rw [ParentAt.unique hren.parent' hat'] at hself
          rw [ParentAt.unique hren.parent hat, ParentAt.unique hren.parent' hat'] at hren
          obtain ⟨found, hstarts⟩ := h.renameStarts_of_renamesAt hplain ho hat hq hat' hren hself hfree
          exact hno found hstarts
  | same heq found hfind hview hnodes =>
      obtain ⟨rfl, hname⟩ := heq
      have hsteady := hsame hview hnodes
      refine ⟨_, v', nodes', hok rfl, ⟨h', hsteadyPlain hsteady, hcore⟩, ?_⟩
      rw [h.tree_same h' hsteady.kept (fun j _ => by rw [hnodes])]
      rw [← hname] at hrun
      obtain ⟨found', hchecks⟩ := (h.renameNode_same (h.walk_live ho)).mp (by rw [hrun])
      exact TreeStep.served (Serves.renameSame ((h.renamesAt_iff hplain ho hat hq hat').mpr
        ⟨found', hchecks, rfl⟩) ((h.placeOf_eq_iff ho hq).mpr ⟨rfl, hname⟩)) le_rfl
  | moved found hstarts hroom hsteady hfinds =>
      refine ⟨_, v', nodes', hok rfl, ⟨h', hsteadyPlain hsteady, hcore⟩, ?_⟩
      rw [h.tree_renamed h' ho hq hstarts hsteady hfinds]
      exact TreeStep.served (h.serves_of_renameStarts hplain ho hat hq hat' hstarts) le_rfl
  | restored found hstarts hroom hback hsteady hfinds =>
      refine ⟨_, v', nodes', herror _ rfl, ⟨h', hsteadyPlain hsteady, hcore⟩, ?_⟩
      rw [h.tree_same h' hsteady.kept (fun j _ => hfinds j)]
      exact TreeStep.full (h.serves_of_renameStarts hplain ho hat hq hat' hstarts) trivial
  | lost found hstarts hroom hback hsteady hfinds =>
      refine ⟨_, v', nodes', herror _ rfl, ⟨h', hsteadyPlain hsteady, hcore⟩, ?_⟩
      rw [h.tree_lost h' ho hsteady hfinds]
      exact TreeStep.lost (h.serves_of_renameStarts hplain ho hat hq hat' hstarts)

end Nyfs
end Nyxis
