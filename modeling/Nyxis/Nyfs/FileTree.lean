import Nyxis.Lib.NameTree
import Nyxis.Nyfs.Store
import Nyxis.Nyfs.HostPath

/-!
# The tree that a volume shows

From the root directory the names of a path lead to an inode.  What the calls can tell about it is
its object: the number, the type, the attributes and the content.  The objects of all paths are the
tree of the volume.

Main results:

- Theorem {lit}`Sound.rooted`: every inode that the names reach stands at one path only.
- Theorem {lit}`Sound.walks_iff`: a path lookup succeeds exactly when there is an object at the path
  and the directories on the way may be searched.
- Theorems {lit}`Sound.tree_made`, {lit}`Sound.tree_removed`, {lit}`Sound.tree_renamed` and
  {lit}`Sound.tree_changed`: what the operations do to the tree.
-/

namespace Nyxis
namespace Nyfs

open NameTree

variable {D : Type} [ReliableDevice D] {L : Layout} {V V' : View} {v v' : Volume D}
variable {nodes nodes' : Nat → Node} {i j : Nat} {cred : Cred}

/-! ## Objects -/

/-- What stands at a path. -/
structure Object where
  ino : Nat
  isDir : Bool
  mode : Nat
  uid : Nat
  gid : Nat
  size : Nat
  mtime : Nat
  atime : Nat
  ctime : Nat
  content : List UInt8
deriving DecidableEq

/-- The names from the root on. -/
abbrev Names : Type :=
  List (List UInt8)

/-- The objects at all paths. -/
abbrev FileTree : Type :=
  Names → Option Object

/-- An inode and its content as an object. -/
def Inode.object (x : Inode) (ino : Nat) (content : List UInt8) : Object where
  ino := ino
  isDir := x.type = nyfsInoTypeDir
  mode := x.unixMode
  uid := x.uid
  gid := x.gid
  size := x.size
  mtime := x.mtime
  atime := x.atime
  ctime := x.ctime
  content := content

/-- The access that the mode of an object grants; the superuser is not asked for. -/
def Object.Grants (o : Object) (cred : Cred) (mask : Nat) : Prop :=
  cred.uid = 0 ∨ mask &&& unixAccess { Inode.zero with
    unixMode := o.mode, uid := o.uid, gid := o.gid } cred = mask

instance (o : Object) (cred : Cred) (mask : Nat) : Decidable (o.Grants cred mask) :=
  inferInstanceAs (Decidable (_ ∨ _))

/-- The inode that a lookup of one name returns. -/
def edgeOf (v : Volume D) (i : Nat) (name : List UInt8) : Option Nat :=
  match (lookupName i name v).1 with
  | .ok (j, _) => some j
  | .error _ => none

/-- The object that an inode is read as. -/
def objectOf (v : Volume D) (i : Nat) : Object :=
  match (readInode i v).1 with
  | .ok x =>
      match (inodeRead x 0 x.size v).1 with
      | .ok bytes => x.object i bytes
      | .error _ => x.object i []
  | .error _ => Inode.zero.object i []

/-- The tree that a volume shows. -/
def treeOf (v : Volume D) : FileTree :=
  view (edgeOf v) (objectOf v) nyfsRootIno

/-- The records that no access control list goes with. -/
def Plain (L : Layout) (V : View) : Prop :=
  ∀ i, Live L V i → (V.inode i).aceCount = 0 ∧ (V.inode i).aclOverflowCount = 0

theorem Inode.object_congr {x y : Inode} (h : x.core = y.core) (ino : Nat) (content : List UInt8) :
    x.object ino content = y.object ino content :=
  show x.core.object ino content = y.core.object ino content from
    congrArg (fun z : Inode => z.object ino content) h

/-- Without a list the mode decides. -/
theorem Plain.grants_iff (h : Plain L V) (hi : Live L V i) (ino : Nat) (content : List UInt8)
    (mask : Nat) : Grants V (V.inode i) cred mask ↔
      ((V.inode i).object ino content).Grants cred mask := by
  rw [Grants, if_pos (h i hi)]
  exact Iff.rfl

theorem Plain.aces_nil (h : Plain L V) (hi : Live L V i) : (V.inode i).aces V = [] := by
  obtain ⟨hcount, hover⟩ := h i hi
  unfold Inode.aces
  rw [hcount, hover]
  simp

/-! ## Edges -/

/-- A record has a name that the calls accept, and stands in a directory. -/
theorem Inventory.find_ok (h : Inventory L V nodes) (hi : Live L V i) {name : List UInt8}
    {found : Nat × Nat} (hfind : (nodes i).find name = some found) :
    NameOk name ∧ (V.inode i).type = nyfsInoTypeDir := by
  have hholds := h.holds i hi
  rw [Node.find, Option.map_eq_some_iff] at hfind
  obtain ⟨r, hr, -⟩ := hfind
  have hmem : r ∈ (nodes i).records := List.mem_of_find?_eq_some hr
  have hname : r.name = name := of_decide_eq_true
    (List.find?_some (p := fun r : Record => decide (r.name = name)) hr)
  rcases hholds.type with hfile | hdir
  · rw [(hholds.file hfile).2.2] at hmem
    cases hmem
  · obtain ⟨hdirOk, -⟩ := hholds.dir hdir
    have hvalid := hdirOk.table.valid r hmem
    rw [← hname]
    exact ⟨⟨hvalid.name_pos, hvalid.name_le⟩, hdir⟩

/-- The edges of a live inode are its records. -/
theorem Sound.edgeOf_eq (h : Sound L v nodes) (hi : Live L v.view i) (name : List UInt8) :
    edgeOf v i name = ((nodes i).find name).map Prod.fst := by
  rw [edgeOf, h.lookupName hi name]
  cases hfind : (nodes i).find name with
  | none =>
      by_cases htype : (v.view.inode i).type = nyfsInoTypeDir
      · rw [if_pos htype, Node.lookup, hfind]
        by_cases hbad : name.length = 0 ∨ nyfsNameMax < name.length
        · rw [if_pos hbad]
          rfl
        · rw [if_neg hbad]
          rfl
      · rw [if_neg htype]
        rfl
  | some found =>
      obtain ⟨hname, htype⟩ := h.inventory.find_ok hi hfind
      rw [if_pos htype, Node.lookup, if_neg hname.not_invalid, hfind]
      rfl

theorem Sound.edge_live (h : Sound L v nodes) (hi : Live L v.view i) {name : List UInt8}
    (hedge : edgeOf v i name = some j) : Live L v.view j ∧ j ≠ nyfsRootIno := by
  rw [h.edgeOf_eq hi, Option.map_eq_some_iff] at hedge
  obtain ⟨found, hfind, rfl⟩ := hedge
  exact ⟨(h.inventory.target_of_find hi hfind).1, (h.inventory.target_of_find hi hfind).2.1⟩

/-- The names lead to live inodes. -/
theorem Sound.walk_live (h : Sound L v nodes) {path : Names}
    (hwalk : walk (edgeOf v) nyfsRootIno path = some i) : Live L v.view i := by
  induction path using List.reverseRecOn generalizing i with
  | nil =>
      obtain rfl : nyfsRootIno = i := Option.some.inj hwalk
      exact h.inventory.root.1
  | append_singleton path name ih =>
      rw [walk_snoc] at hwalk
      obtain ⟨j, hj, hedge⟩ := Option.bind_eq_some_iff.mp hwalk
      exact (h.edge_live (ih hj) hedge).1

/-- A record is found under its name. -/
theorem Node.record_of_find {n : Node} {name : List UInt8} {c type : Nat}
    (hfind : n.find name = some (c, type)) : ∃ r ∈ n.records, r.name = name ∧ r.ino = c := by
  rw [Node.find, Option.map_eq_some_iff] at hfind
  obtain ⟨r, hr, heq⟩ := hfind
  have hname : r.name = name := of_decide_eq_true
    (List.find?_some (p := fun r : Record => decide (r.name = name)) hr)
  exact ⟨r, List.mem_of_find?_eq_some hr, hname, congrArg Prod.fst heq⟩

/-- Every inode that the names reach stands at one path only. -/
theorem Sound.rooted (h : Sound L v nodes) : Rooted (edgeOf v) nyfsRootIno where
  entry p i n hp hedge := (h.edge_live (h.walk_live hp) hedge).2 rfl
  once p q i j n m c hp hq hn hm := by
    have hi := h.walk_live hp
    have hj := h.walk_live hq
    rw [h.edgeOf_eq hi, Option.map_eq_some_iff] at hn
    rw [h.edgeOf_eq hj, Option.map_eq_some_iff] at hm
    obtain ⟨⟨c₁, type₁⟩, hfind₁, rfl⟩ := hn
    obtain ⟨⟨c₂, type₂⟩, hfind₂, heq⟩ := hm
    obtain ⟨r, hr, hname, hino⟩ := Node.record_of_find hfind₁
    obtain ⟨s, hs, hname', hino'⟩ := Node.record_of_find hfind₂
    obtain ⟨rfl, rfl⟩ := h.inventory.once i j hi hj r hr s hs (by rw [hino, hino']; exact heq.symm)
    exact ⟨rfl, hname.symm.trans hname'⟩

/-- The names lead to what lookups return. -/
theorem found_iff_walk : Found v i ↔ ∃ path, walk (edgeOf v) nyfsRootIno path = some i := by
  constructor
  · intro h
    induction h with
    | root => exact ⟨[], rfl⟩
    | @child dir ino type name _ hlookup ih =>
        obtain ⟨path, hpath⟩ := ih
        refine ⟨path ++ [name], ?_⟩
        rw [walk_snoc, hpath, Option.bind_some, edgeOf, hlookup]
  · rintro ⟨path, hwalk⟩
    induction path using List.reverseRecOn generalizing i with
    | nil =>
        obtain rfl : nyfsRootIno = i := Option.some.inj hwalk
        exact Found.root
    | append_singleton path name ih =>
        rw [walk_snoc] at hwalk
        obtain ⟨j, hj, hedge⟩ := Option.bind_eq_some_iff.mp hwalk
        rw [edgeOf] at hedge
        split at hedge
        next k type hlookup =>
          cases hedge
          exact Found.child (ih hj) hlookup
        next => cases hedge

/-- The object of a live inode. -/
theorem Sound.objectOf_eq (h : Sound L v nodes) (hi : Live L v.view i) :
    objectOf v i =
      (v.view.inode i).object i ((nodes i).content L v.view (v.view.inode i)) := by
  obtain ⟨w, hread, -⟩ := (h.inventory.toOwned.does_readInode (D := D) h.valid hi).run h.valid
    h.mounted rfl
  obtain ⟨w', hbytes, -⟩ := (h.inventory.does_inodeRead (D := D) h.valid hi 0
    (v.view.inode i).size).run h.valid h.mounted rfl
  have hall : (((nodes i).content L v.view (v.view.inode i)).drop 0).take (v.view.inode i).size =
      (nodes i).content L v.view (v.view.inode i) := by
    rw [List.drop_zero, List.take_of_length_le]
    rw [Node.length_content]
    exact Nat.min_le_left _ _
  rw [objectOf, hread]
  dsimp only
  rw [hbytes, hall]

/-- What the tree shows at the path of an inode. -/
theorem treeOf_walk {path : Names} (hwalk : walk (edgeOf v) nyfsRootIno path = some i) :
    treeOf v path = some (objectOf v i) := by
  rw [treeOf, view, hwalk]
  rfl

theorem treeOf_eq_some {path : Names} {o : Object} : treeOf v path = some o ↔
    ∃ i, walk (edgeOf v) nyfsRootIno path = some i ∧ objectOf v i = o := by
  rw [treeOf, view, Option.map_eq_some_iff]

/-! ## Operations on the tree -/

theorem Sound.edge_same (h : Sound L v nodes) (h' : Sound L v' nodes') (hj : Live L v.view j)
    (hj' : Live L v'.view j) {name : List UInt8} (hfind : (nodes' j).find name = (nodes j).find name) :
    edgeOf v' j name = edgeOf v j name := by
  rw [h.edgeOf_eq hj, h'.edgeOf_eq hj', hfind]

theorem Sound.object_kept (h : Sound L v nodes) (h' : Sound L v' nodes') (hj : Live L v.view j)
    (hkept : Kept L v.view nodes v'.view nodes' j) : objectOf v' j = objectOf v j := by
  rw [h.objectOf_eq hj, h'.objectOf_eq hkept.live,
    (hkept.sameData hj).content_eq (Inode.size_of_core hkept.core)]
  exact Inode.object_congr hkept.core _ _

/-- What keeps the inodes and the names keeps the tree. -/
theorem Sound.tree_same (h : Sound L v nodes) (h' : Sound L v' nodes')
    (hkept : ∀ j, Live L v.view j → Kept L v.view nodes v'.view nodes' j)
    (hfind : ∀ j, Live L v.view j → (nodes' j).find = (nodes j).find) : treeOf v' = treeOf v := by
  funext path
  have hwalk : walk (edgeOf v') nyfsRootIno path = walk (edgeOf v) nyfsRootIno path := by
    refine walk_congr (fun q name j _ hj => ?_)
    have hlive := h.walk_live hj
    exact h.edge_same h' hlive (hkept j hlive).live (by rw [hfind j hlive])
  rw [treeOf, view, hwalk, treeOf, view]
  cases hj : walk (edgeOf v) nyfsRootIno path with
  | none => rfl
  | some j =>
      have hlive := h.walk_live hj
      rw [Option.map_some, Option.map_some, h.object_kept h' hlive (hkept j hlive)]

/-- The object of an inode that a creation starts from. -/
def newObject (ino : Nat) (isDir : Bool) (mode : Nat) (cred : Cred) : Object :=
  (newInode ino (makeType isDir) mode cred).object ino []

/-- A creation puts a new object at its path. -/
theorem Sound.tree_made (h : Sound L v nodes) (h' : Sound L v' nodes') {path : Names} {p : Nat}
    {name : List UInt8} {isDir : Bool} {mode : Nat}
    (hp : walk (edgeOf v) nyfsRootIno path = some p)
    (hstarts : MakeStarts L v.view (nodes p) (v.view.inode p) name cred)
    (hmade : Made L v.view nodes p name (newInode i (makeType isDir) mode cred) i v'.view nodes') :
    treeOf v' =
      Function.update (treeOf v) (path ++ [name]) (some (newObject i isDir mode cred)) := by
  have hlivep := h.walk_live hp
  have hlivep' := (hmade.kept p hlivep).live
  have hedge : edgeOf v' p name = some i := by
    rw [h'.edgeOf_eq hlivep', hmade.parent, Function.update_self]
    rfl
  have hlive' : Live L v'.view i := (h'.edge_live hlivep' hedge).1
  have hobject : objectOf v' i = newObject i isDir mode cred := by
    have hcontent : (nodes' i).content L v'.view (v'.view.inode i) = [] := by
      rw [Node.content, hmade.data, show capacity L [] = 0 from Nat.zero_mul _, Nat.min_zero]
      rfl
    have hattributes : (v'.view.inode i).object i [] =
        ({ (v'.view.inode i).core.bare with dirHashRoot := 0 } : Inode).object i [] := rfl
    rw [h'.objectOf_eq hlive', hcontent, hattributes, hmade.attributes]
    rfl
  rw [← hobject]
  refine h.rooted.view_link hp ?_ hedge ?_ ?_ ?_
  · rw [h.edgeOf_eq hlivep, hstarts.absent]
    rfl
  · intro q j m hj hne
    have hlive := h.walk_live hj
    refine h.edge_same h' hlive (hmade.kept j hlive).live ?_
    by_cases hjp : j = p
    · subst hjp
      rw [hmade.parent, Function.update_of_ne (fun hm => hne ⟨rfl, hm⟩)]
    · rw [hmade.others j hlive hjp]
  · intro m
    rw [h'.edgeOf_eq hlive', hmade.self]
    rfl
  · intro q j hj
    have hlive := h.walk_live hj
    exact h.object_kept h' hlive (hmade.kept j hlive)

/-- A removal takes the object at its path away. -/
theorem Sound.tree_removed (h : Sound L v nodes) (h' : Sound L v' nodes') {path : Names} {p : Nat}
    {name : List UInt8} (hp : walk (edgeOf v) nyfsRootIno path = some p)
    (hout : RemoveOutcome L v.view nodes p name v'.view nodes' (.ok ())) :
    treeOf v' = cut (path ++ [name]) (treeOf v) := by
  have hlivep := h.walk_live hp
  cases hout with
  | removed t type hfind ht hbit hkept hparent hothers htables hfreed hempty =>
      have htarget : edgeOf v p name = some t := by
        rw [h.edgeOf_eq hlivep, hfind]
        rfl
      have hne : p ≠ t := by
        rintro rfl
        have hloop : walk (edgeOf v) nyfsRootIno (path ++ [name]) = some p := by
          rw [walk_snoc, hp]
          exact htarget
        have hlength := congrArg List.length (h.rooted.walk_inj hp hloop)
        rw [List.length_append] at hlength
        exact absurd hlength.symm (Nat.succ_ne_self _)
      have hother : ∀ {j : Nat}, edgeOf v p name ≠ some j → j ≠ t := by
        rintro j hedge rfl
        exact hedge htarget
      refine h.rooted.view_unlink hp ?_ ?_ ?_
      · rw [h'.edgeOf_eq (hkept p hlivep hne).live, hparent, Function.update_self]
        rfl
      · intro q j m hj hedge hnot
        have hlive := h.walk_live hj
        refine h.edge_same h' hlive (hkept j hlive (hother hedge)).live ?_
        by_cases hjp : j = p
        · subst hjp
          rw [hparent, Function.update_of_ne (fun hm => hnot ⟨rfl, hm⟩)]
        · rw [hothers j hjp]
      · intro q j hj hedge
        have hlive := h.walk_live hj
        exact h.object_kept h' hlive (hkept j hlive (hother hedge))

theorem Steady.objects (h : Sound L v nodes) (h' : Sound L v' nodes')
    (hsteady : Steady L v.view nodes v'.view nodes') {path : Names}
    (hwalk : walk (edgeOf v) nyfsRootIno path = some j) :
    Live L v.view j ∧ Live L v'.view j ∧ objectOf v' j = objectOf v j := by
  have hlive := h.walk_live hwalk
  exact ⟨hlive, (hsteady.kept j hlive).live, h.object_kept h' hlive (hsteady.kept j hlive)⟩

/-- A rename moves what stands at the old path to the new one. -/
theorem Sound.tree_renamed (h : Sound L v nodes) (h' : Sound L v' nodes') {path path' : Names}
    {o q : Nat} {oldName newName : List UInt8} {found : Nat × Nat}
    (ho : walk (edgeOf v) nyfsRootIno path = some o)
    (hq : walk (edgeOf v) nyfsRootIno path' = some q)
    (hstarts : RenameStarts v.view nodes o oldName q newName cred found)
    (hsteady : Steady L v.view nodes v'.view nodes')
    (hfinds : ∀ j, (nodes' j).find =
      moveFind (fun j => (nodes j).find) o oldName q newName found j) :
    treeOf v' = NameTree.move (path ++ [oldName]) (path' ++ [newName]) (treeOf v) := by
  obtain ⟨hliveo, hliveo', -⟩ := Steady.objects h h' hsteady ho
  obtain ⟨hliveq, hliveq', -⟩ := Steady.objects h h' hsteady hq
  have hne : ¬(o = q ∧ oldName = newName) := hstarts.moves
  refine h.rooted.view_move ho (c := found.1) ?_ hq ?_ ?_ ?_ ?_ ?_
  · rw [h.edgeOf_eq hliveo, hstarts.find]
    rfl
  · rw [h.edgeOf_eq hliveq, hstarts.absent]
    rfl
  · rw [h'.edgeOf_eq hliveo', hfinds, moveFind_old _ found hne]
    rfl
  · rw [h'.edgeOf_eq hliveq', hfinds, moveFind_self]
    rfl
  · intro r j name hj hold hnew
    obtain ⟨hlive, hlive', -⟩ := Steady.objects h h' hsteady hj
    refine h.edge_same h' hlive hlive' ?_
    rw [hfinds, moveFind_of_ne _ found hold hnew]
  · intro r j hj
    exact (Steady.objects h h' hsteady hj).2.2

/-- A rename that finds no room for either name loses what stood at the old path. -/
theorem Sound.tree_lost (h : Sound L v nodes) (h' : Sound L v' nodes') {path : Names} {o : Nat}
    {oldName : List UInt8} (ho : walk (edgeOf v) nyfsRootIno path = some o)
    (hsteady : Steady L v.view nodes v'.view nodes')
    (hfinds : ∀ j, (nodes' j).find = Function.update (fun j => (nodes j).find) o
      (Function.update (nodes o).find oldName none) j) :
    treeOf v' = cut (path ++ [oldName]) (treeOf v) := by
  obtain ⟨hliveo, hliveo', -⟩ := Steady.objects h h' hsteady ho
  refine h.rooted.view_unlink ho ?_ ?_ ?_
  · rw [h'.edgeOf_eq hliveo', hfinds, Function.update_self, Function.update_self]
    rfl
  · intro q j name hj _ hnot
    obtain ⟨hlive, hlive', -⟩ := Steady.objects h h' hsteady hj
    refine h.edge_same h' hlive hlive' ?_
    rw [hfinds]
    by_cases hjo : j = o
    · subst hjo
      rw [Function.update_self, Function.update_of_ne (fun hn => hnot ⟨rfl, hn⟩)]
    · rw [Function.update_of_ne hjo]
  · intro q j hj _
    exact (Steady.objects h h' hsteady hj).2.2

/-- A change of one inode changes the object at its path. -/
theorem Sound.tree_changed (h : Sound L v nodes) (h' : Sound L v' nodes') {path : Names}
    (hwalk : walk (edgeOf v) nyfsRootIno path = some i)
    (htouches : Touches L v.view nodes i v'.view nodes') :
    treeOf v' = Function.update (treeOf v) path (some (objectOf v' i)) := by
  refine h.rooted.view_set hwalk ?_ ?_
  · intro q j name hj
    have hlive := h.walk_live hj
    exact h.edge_same h' hlive ((live_congr htouches.inodeBit).mpr hlive) (by rw [htouches.finds])
  · intro q j hj hne
    have hlive := h.walk_live hj
    exact h.object_kept h' hlive (htouches.others j hlive hne)

/-! ## Looking paths up -/

/-- There is an object at the path, and the directories on the way may be searched. -/
structure ShowsAt (t : FileTree) (cred : Cred) (path : Names) (o : Object) : Prop where
  object : t path = some o
  search : ∀ q a, q <+: path → q ≠ path → t q = some a → a.Grants cred nyfsAceExecute

/-- A walk with access checks is a walk through inodes that may be searched. -/
theorem walks_iff_walk {path : Names} {k : Nat} : Walks v cred i path k ↔
    walk (edgeOf v) i path = some k ∧
      ∀ q j, q <+: path → q ≠ path → walk (edgeOf v) i q = some j → MaySearch v cred j := by
  induction path generalizing i with
  | nil =>
      rw [walks_nil, walk_nil, Option.some_inj]
      exact ⟨fun heq => ⟨heq, fun q j hq hne => absurd (List.prefix_nil.mp hq) hne⟩, fun h => h.1⟩
  | cons name path ih =>
      rw [walks_cons, walk_cons]
      constructor
      · rintro ⟨hsearch, j, type, hlookup, hrest⟩
        have hedge : edgeOf v i name = some j := by
          rw [edgeOf, hlookup]
        obtain ⟨hwalk, hall⟩ := ih.mp hrest
        refine ⟨by rw [hedge]; exact hwalk, fun q l hq hne hl => ?_⟩
        cases q with
        | nil =>
            obtain rfl : i = l := Option.some.inj hl
            exact hsearch
        | cons n q =>
            obtain ⟨rfl, hq'⟩ := List.cons_prefix_cons.mp hq
            rw [walk_cons, hedge] at hl
            exact hall q l hq' (fun heq => hne (by rw [heq])) hl
      · rintro ⟨hwalk, hall⟩
        obtain ⟨j, hedge, hrest⟩ := Option.bind_eq_some_iff.mp hwalk
        refine ⟨hall [] i List.nil_prefix (fun heq => by cases heq) rfl, j, ?_⟩
        have hlookup := hedge
        rw [edgeOf] at hlookup
        split at hlookup
        next l type hok =>
          cases hlookup
          refine ⟨type, hok, ih.mpr ⟨hrest, fun q k' hq hne hk' => ?_⟩⟩
          refine hall (name :: q) k' (List.cons_prefix_cons.mpr ⟨rfl, hq⟩)
            (fun heq => hne (List.cons.inj heq).2) ?_
          rw [walk_cons, hedge]
          exact hk'
        next => cases hlookup

/-- An inode may be searched when its object grants it. -/
theorem Sound.maySearch_object (h : Sound L v nodes) (hplain : Plain L v.view)
    (hi : Live L v.view i) : MaySearch v cred i ↔ (objectOf v i).Grants cred nyfsAceExecute := by
  rw [h.maySearch_iff hi, h.objectOf_eq hi]
  exact hplain.grants_iff hi _ _ _

/-- A path lookup succeeds exactly when the tree has an object at the path and lets the credential
search the directories on the way. -/
theorem Sound.walks_iff (h : Sound L v nodes) (hplain : Plain L v.view) {path : Names} {k : Nat} :
    Walks v cred nyfsRootIno path k ↔
      walk (edgeOf v) nyfsRootIno path = some k ∧
        ShowsAt (treeOf v) cred path (objectOf v k) := by
  rw [walks_iff_walk]
  refine and_congr_right (fun hwalk => ⟨fun hall => ⟨treeOf_walk hwalk, ?_⟩, fun hres => ?_⟩)
  · intro q a hq hne ha
    obtain ⟨j, hj, rfl⟩ := treeOf_eq_some.mp ha
    exact (h.maySearch_object hplain (h.walk_live hj)).mp (hall q j hq hne hj)
  · intro q j hq hne hj
    exact (h.maySearch_object hplain (h.walk_live hj)).mpr
      (hres.search q _ hq hne (treeOf_walk hj))

/-! ## Records without a list -/

theorem Plain.inherits_nothing (h : Plain L V) (hi : Live L V i) (isDir : Bool) :
    inheritedAces V (V.inode i) isDir = [] := by
  rw [inheritedAces, h.aces_nil hi]
  rfl

/-- A child of a parent without inheritable entries stays as it is. -/
theorem Node.Holds.inheritAcl_nothing (hL : L.Valid) {x : Inode} {n : Node} (h : n.Holds L V x)
    {isDir : Bool} (hnone : inheritedAces V x isDir = []) (child : Inode) :
    Does L V (Nyfs.inheritAcl x child isDir : NyfsM D _) (.ok child) V := by
  refine (h.does_gatherAces hL).bind ?_
  dsimp only
  rw [inheritedAces] at hnone
  rw [if_pos (List.length_eq_zero_iff.mpr hnone)]
  exact Does.pure child

/-- A creation whose checks pass. -/
structure MakeAllowed (V : View) (n : Node) (x : Inode) (name : List UInt8) (cred : Cred) :
    Prop where
  type : x.type = nyfsInoTypeDir
  grants : Grants V x cred nyfsAceWriteData
  nameOk : NameOk name
  absent : n.find name = none

/-- Without room for the record the new inode is given back. -/
theorem Inventory.linkNode_full (hL : L.Valid) (h : Inventory L V nodes) {p : Nat}
    (hp : Live L V p) {name : List UInt8} {x : Inode}
    (hallowed : MakeAllowed V (nodes p) (V.inode p) name cred) (h0 : i ≠ 0) (hi : i < L.inodeCount)
    {V₁ : View} {taken touched : List Nat} (htakes : Takes L (V.takeInode i) V₁ taken touched)
    (htouch : touched ⊆ taken) (hfits : (sealInode i x).Fits) {type : Nat} (htype : type < 256)
    (hno : ¬((nodes p).free + 24 + name.length ≤ capacity L (nodes p).table ∨
      planOne L (mark V.blockBit taken) (tailOf (nodes p).table) ≠ none)) :
    ∃ V', Does L V₁ (Nyfs.linkNode p (V.inode p) name i x type : NyfsM D _)
      (.error (.status .NdiskFull)) V' := by
  have hilt : i < 2 ^ 64 := by
    have := hL.inodeCount_lt
    omega
  have hset : ∀ b ∈ chainBlocks (nodes p).table, V.blockBit b = true :=
    fun b hb => h.set p hp b (List.mem_append_right _ hb)
  -- the table of the parent is not touched by the new inode
  have hdir : Dir L (V₁.writeInode i (sealInode i x)) (V.inode p).dirHashRoot (nodes p).table
      (nodes p).buckets (nodes p).free := by
    refine ((h.holds p hp).dir hallowed.type).1.congr (fun b hb => ?_)
    refine htakes.block b (fun hmem => ?_)
    have hclear : V.blockBit b = false := (htakes.fresh b (htouch hmem)).2
    rw [hset b hb] at hclear
    cases hclear
  have habsent : recordOf (nodes p).buckets name = none := Option.map_eq_none_iff.mp hallowed.absent
  obtain ⟨res, dir', segs', buckets', free', V', taken', hdoes, hinserted⟩ :=
    hdir.insert (D := D) hL (htakes.ready.writeInode i (sealInode i x))
      (fun b hb => htakes.blockBit_of_set (hset b hb)) hallowed.nameOk habsent hilt htype
  have hbits : (V₁.writeInode i (sealInode i x)).blockBit = mark V.blockBit taken := htakes.mark_eq
  rcases hinserted.outcome with ⟨-, -, -, -, hroom⟩ | ⟨rfl, -⟩
  · refine absurd ?_ hno
    rcases hroom with ⟨hle, -⟩ | ⟨-, hplan⟩
    · exact Or.inl hle
    · rw [hbits] at hplan
      exact Or.inr hplan
  · exact ⟨_, (does_writeInode hL h0 hi hfits).attempt_bind
      (hdoes.bind (does_giveBack hL h0 hi _))⟩

/-- An inode that is created in a parent without a list has none, and a creation whose checks pass
fails only when the volume is full. -/
theorem Inventory.makeNode_plain (hL : L.Valid) (h : Inventory L V nodes) {p : Nat}
    (hp : Live L V p) {isDir : Bool} (hnone : inheritedAces V (V.inode p) isDir = [])
    {name : List UInt8} {mode : Nat} (hcred : cred.Fits)
    (hallowed : MakeAllowed V (nodes p) (V.inode p) name cred) :
    ∃ r V', Does L V (Nyfs.makeNode isDir p name mode cred : NyfsM D _) r V' ∧
      (∀ i, r = .ok i → (V'.inode i).aceCount = 0 ∧ (V'.inode i).aclOverflowCount = 0) ∧
      (∀ e, r = .error e → e = .status .NdiskFull ∨ e = .status .NoutOfMemory) := by
  have hread := h.toOwned.does_readDirInode (D := D) hL hp
  rw [if_neg (not_not.mpr hallowed.type)] at hread
  have haccess := (h.holds p hp).does_checkAccess (D := D) hL cred nyfsAceWriteData
  rw [if_pos hallowed.grants] at haccess
  have habsent := (h.holds p hp).does_requireAbsent (D := D) hL hallowed.type name
  rw [Node.absent, if_neg hallowed.nameOk.not_invalid, hallowed.absent] at habsent
  rcases h.ready.allocInode (D := D) hL with ⟨i, -, h0, hi, hclear, halloc⟩ | ⟨-, hfull⟩
  swap
  · refine ⟨_, _, does_requireWritable.bind (hread.bind (haccess.bind (habsent.bind
      hfull.bind_error))), ?_, ?_⟩
    · rintro _ ⟨⟩
    · rintro _ ⟨⟩
      exact Or.inr rfl
  have hilt : i < 2 ^ 64 := by
    have := hL.inodeCount_lt
    omega
  have hready := h.ready.takeInode hL hi hclear
  have hholds : (nodes p).Holds L (V.takeInode i) (V.inode p) :=
    (h.holds p hp).congr (fun _ _ => rfl)
  have hinherit := hholds.inheritAcl_nothing (D := D) hL hnone
    (newInode i (makeType isDir) mode cred)
  have hfits : (newInode i (makeType isDir) mode cred).Fits := by
    refine newInode_fits hcred ?_ hilt mode
    cases isDir <;> decide
  have hacl : AclAt L (newInode i (makeType isDir) mode cred) [] :=
    newInode_aclAt (makeType isDir) mode
  have hstart : ∀ {r : Except Stop Nat} {V' : View}, Does L (V.takeInode i) _ r V' →
      Does L V (Nyfs.makeNode isDir p name mode cred : NyfsM D _) r V' := fun hdoes =>
    does_requireWritable.bind (hread.bind (haccess.bind (habsent.bind (halloc.bind
      (hinherit.attempt_bind hdoes)))))
  -- the end: there is room for the record, or there is none
  have hlink : ∀ {x : Inode} {V₁ : View} {taken touched : List Nat} {n : Node} {type : Nat},
      Takes L (V.takeInode i) V₁ taken touched → n.blocks.Perm taken → touched ⊆ n.blocks →
      n.Holds L V₁ (sealInode i x) → n.buckets = (fun _ => []) → type = direntType x → type < 256 →
      x.aceCount = 0 ∧ x.aclOverflowCount = 0 →
      ∃ r V', Does L V₁ (Nyfs.linkNode p (V.inode p) name i x type : NyfsM D _) r V' ∧
        (∀ i, r = .ok i → (V'.inode i).aceCount = 0 ∧ (V'.inode i).aclOverflowCount = 0) ∧
        (∀ e, r = .error e → e = .status .NdiskFull ∨ e = .status .NoutOfMemory) := by
    intro x V₁ taken touched n type htakes hperm htouch hx hempty htype htypelt hcounts
    obtain ⟨r, V', nodes', hdoes, -, hout⟩ := h.linkNode (D := D) hL hp hallowed.type hallowed.nameOk
      hallowed.absent h0 hi hclear htakes hperm htouch hx hx.fits hempty htype
    rcases hout with ⟨rfl, -, -, hcore, -⟩ | ⟨e, rfl, -, -, -, hlt, hplan⟩
    · refine ⟨_, V', hdoes, ?_, ?_⟩
      · rintro _ ⟨⟩
        have hcountCore := congrArg (fun z : Inode => z.aceCount) hcore
        have hoverCore := congrArg (fun z : Inode => z.aclOverflowCount) hcore
        exact ⟨hcountCore.trans hcounts.1, hoverCore.trans hcounts.2⟩
      · rintro _ ⟨⟩
    · have hno : ¬((nodes p).free + 24 + name.length ≤ capacity L (nodes p).table ∨
          planOne L (mark V.blockBit taken) (tailOf (nodes p).table) ≠ none) := by
        rintro (hle | hroom)
        · exact absurd hle (Nat.not_le.mpr hlt)
        · exact hroom hplan
      obtain ⟨V'', hdoes'⟩ := h.linkNode_full (D := D) hL hp hallowed h0 hi htakes
        (fun b hb => hperm.mem_iff.mp (htouch hb)) hx.fits htypelt hno
      refine ⟨_, V'', hdoes', ?_, ?_⟩
      · rintro _ ⟨⟩
      · rintro _ ⟨⟩
        exact Or.inl rfl
  cases isDir with
  | false =>
      obtain ⟨r, V', hdoes, hout⟩ := hlink (n := ⟨[], [], fun _ => [], 0, []⟩)
        (Takes.refl hready []) (List.Perm.refl _) (List.nil_subset _)
        (holds_newFile hilt hacl rfl hfits) rfl (show nyfsDirentTypeFile = _ from rfl) (by decide)
        ⟨rfl, rfl⟩
      exact ⟨r, V', hstart hdoes, hout⟩
  | true =>
      obtain ⟨res, child', segs, V₃, taken, hcreate, hlong, hcases⟩ :=
        hready.dirhashCreate (D := D) hL (newInode i (makeType true) mode cred)
      rcases hcases with ⟨rfl, hchild', hdir, d, ls, t, -, -, rfl⟩ | ⟨rfl, rfl, -⟩
      · have hholds' := holds_newDir hL hilt hacl rfl hfits hdir
        rw [← hchild'] at hholds'
        have hperm : (chainBlocks segs).Perm (d :: ls) := by
          have := hlong.perm
          rwa [show chainBlocks ([] : List Segment) = [] from rfl, List.append_nil] at this
        have hblocks : (⟨[], segs, fun _ => [], 160, []⟩ : Node).blocks = chainBlocks segs := by
          simp [Node.blocks, Node.body, chainBlocks, listBlocks, dataBlocks]
        have htype : nyfsDirentTypeDir = direntType child' := by
          rw [hchild']
          rfl
        obtain ⟨r, V', hdoes, hout⟩ := hlink (n := ⟨[], segs, fun _ => [], 160, []⟩)
          hlong.takes (by rw [hblocks]; exact hperm) (by rw [hblocks]; exact List.Subset.refl _)
          hholds' rfl htype (by decide) (by rw [hchild']; exact ⟨rfl, rfl⟩)
        exact ⟨r, V', hstart (hcreate.bind hdoes), hout⟩
      · refine ⟨_, _, hstart (hcreate.bind (does_giveBack hL h0 hi .NdiskFull)), ?_, ?_⟩
        · rintro _ ⟨⟩
        · rintro _ ⟨⟩
          exact Or.inl rfl

end Nyfs
end Nyxis
