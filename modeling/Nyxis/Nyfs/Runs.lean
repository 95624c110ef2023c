import Nyxis.Nyfs.Format
import Nyxis.Nyfs.Kernel

/-!
# Runs of operations

A run formats a device, opens it and makes requests on inode numbers that lookups return.
Every volume that a run reaches has an inventory, so no request hangs and every error leaves a
consistent volume.

Main results:

- Theorem {lit}`Request.effect`: one request.
- Theorem {lit}`Reachable.inventory`: whole runs.
- Theorem {lit}`block_ownership`: no block has two users, all users' blocks are set in the bitmap,
  and the counters agree with the bitmaps.
-/

namespace Nyxis
namespace Nyfs

open Bitmap

variable {D : Type} [ReliableDevice D] {L : Layout} {V V' : View} {nodes nodes' : Nat → Node}
variable {v v' : Volume D} {p : MkfsParams} {d : D} {i : Nat}

/-! ## Requests -/

/-- The operations of a run.  {lit}`make` is {lit}`nyfs_op_create` or {lit}`nyfs_op_mkdir`, and
also what the kernel does on the volume; {lit}`writeFile` is the kernel's {lit}`nyfs_write`
through an open handle. -/
inductive Request
  | make (isDir : Bool) (parent : Nat) (name : List UInt8) (mode : Nat) (cred : Cred)
  | remove (parent : Nat) (name : List UInt8) (cred : Cred) (expectDir : Option Bool)
  | rename (oldParent : Nat) (oldName : List UInt8) (newParent : Nat) (newName : List UInt8)
      (cred : Cred)
  | write (ino : Nat) (cred : Cred) (offset : Nat) (bytes : List UInt8)
  | writeFile (ino offset : Nat) (bytes : List UInt8)
  | truncate (ino : Nat) (cred : Cred) (size : Nat)
  | setattr (ino : Nat) (cred : Cred) (change : AttrChange)
  | putAcl (ino : Nat) (aces : List Ace)

/-- Run a call for its status. -/
def statusOf {α : Type} (m : NyfsM D α) : NyfsM D Unit := do
  let _ ← m
  pure ()

omit [ReliableDevice D] in
theorem statusOf_state {α : Type} (m : NyfsM D α) (v : Volume D) : (statusOf m v).2 = (m v).2 := by
  unfold statusOf
  cases hrun : m v with
  | mk r v' =>
      cases r with
      | ok a => rw [Eff.bind_ok hrun, Eff.pure_run]
      | error e => rw [Eff.bind_error hrun]

/-- A request. -/
def Request.exec : Request → NyfsM D Unit
  | .make isDir parent name mode cred => statusOf (makeNode isDir parent name mode cred)
  | .remove parent name cred expectDir => removeNode parent name cred expectDir
  | .rename oldParent oldName newParent newName cred =>
      renameNode oldParent oldName newParent newName cred
  | .write ino cred offset bytes => statusOf (opWrite ino cred offset bytes)
  | .writeFile ino offset bytes => statusOf (fileWrite ino offset bytes)
  | .truncate ino cred size => opTruncate ino cred size
  | .setattr ino cred change => opSetattr ino cred change
  | .putAcl ino aces => Nyfs.putAcl ino aces

/-- The inode numbers that a request is made on. -/
def Request.inodes : Request → List Nat
  | .make _ parent .. => [parent]
  | .remove parent .. => [parent]
  | .rename oldParent _ newParent .. => [oldParent, newParent]
  | .write ino .. => [ino]
  | .writeFile ino .. => [ino]
  | .truncate ino .. => [ino]
  | .setattr ino .. => [ino]
  | .putAcl ino .. => [ino]

/-- The arguments are in the range of their C types. -/
def Request.Fits : Request → Prop
  | .make _ _ _ _ cred => cred.Fits
  | .setattr _ _ change => change.Fits
  | .putAcl _ aces => (∀ ace ∈ aces, ace.Fits) ∧ aces.length ≤ nyfsMaxTotalAces
  | .write _ _ offset _ => offset < 2 ^ 64
  | .writeFile _ offset _ => offset < 2 ^ 64
  | _ => True

/-- The lookup of one path component, without the access check. -/
def lookupName (dir : Nat) (name : List UInt8) : NyfsM D (Nat × Nat) := do
  let x ← readDirInode dir
  dirhashLookup x name

/-- The inode numbers that lookups return, from the root directory on. -/
inductive Found (v : Volume D) : Nat → Prop
  | root : Found v nyfsRootIno
  | child {dir ino type : Nat} {name : List UInt8} (hdir : Found v dir)
      (hlookup : (lookupName dir name v).1 = .ok (ino, type)) : Found v ino

/-- The volumes that runs reach whose requests are all allowed where they are made. -/
inductive Reachable (allowed : Volume D → Request → Prop) (p : MkfsParams) (d : D) :
    Volume D → Prop
  | opened {d' : D} {v : Volume D} (hformat : nyfsFormat d p = (.ok (), d'))
      (hopen : Opens d' v) : Reachable allowed p d v
  | step {v : Volume D} (h : Reachable allowed p d v) (q : Request) (hfits : q.Fits)
      (hfound : ∀ i ∈ q.inodes, Found v i) (hallowed : allowed v q) :
      Reachable allowed p d (q.exec v).2

/-- A run in which every request is allowed. -/
def anyRequest (_ : Volume D) (_ : Request) : Prop :=
  True

theorem Reachable.mono {allowed allowed' : Volume D → Request → Prop}
    (h : Reachable allowed p d v) (himp : ∀ w q, allowed w q → allowed' w q) :
    Reachable allowed' p d v := by
  induction h with
  | opened hformat hopen => exact Reachable.opened hformat hopen
  | step _ q hfits hfound hallowed ih =>
      exact Reachable.step ih q hfits hfound (himp _ q hallowed)

/-! ## Lookups -/

/-- A directory answers a lookup from its records. -/
theorem Inventory.does_lookupName (hL : L.Valid) (h : Inventory L V nodes) (hi : Live L V i)
    (name : List UInt8) :
    Does L V (lookupName i name : NyfsM D _)
      (if (V.inode i).type = nyfsInoTypeDir then (nodes i).lookup name
        else .error (.status .Nunsupported)) V := by
  have hread := h.toOwned.does_readDirInode (D := D) hL hi
  by_cases htype : (V.inode i).type = nyfsInoTypeDir
  · rw [if_neg (not_not.mpr htype)] at hread
    rw [if_pos htype]
    exact hread.bind ((h.holds i hi).does_lookup hL htype name)
  · rw [if_pos htype] at hread
    rw [if_neg htype]
    exact hread.bind_error

/-- Lookups return live inodes. -/
theorem Found.live (hL : L.Valid) (hv : Mounted L v) (h : Inventory L v.view nodes)
    (hfound : Found v i) : Live L v.view i := by
  induction hfound with
  | root => exact h.root.1
  | @child dir ino type name _ hlookup ih =>
      obtain ⟨v', hrun, -⟩ := (h.does_lookupName (D := D) hL ih name).run hL hv rfl
      rw [hrun] at hlookup
      dsimp only at hlookup
      split at hlookup
      · rcases (nodes dir).lookup_cases name with ⟨e, he, -⟩ | ⟨found, hok, -, hfind⟩
        · rw [he] at hlookup
          cases hlookup
        · rw [hok] at hlookup
          cases hlookup
          exact (h.target_of_find ih hfind).1
      · cases hlookup

/-! ## One request -/

/-- What a request does to the view. -/
inductive Effect (L : Layout) (V : View) (nodes : Nat → Node) (V' : View) (nodes' : Nat → Node) :
    Request → Except Stop Unit → Prop
  | make {isDir : Bool} {parent : Nat} {name : List UInt8} {mode : Nat} {cred : Cred}
      {r : Except Stop Nat} (hout : MakeOutcome L V nodes isDir parent name mode cred V' nodes' r) :
      Effect L V nodes V' nodes' (.make isDir parent name mode cred) (r.map (fun _ => ()))
  | remove {parent : Nat} {name : List UInt8} {cred : Cred} {expectDir : Option Bool}
      {r : Except Stop Unit} (hout : RemoveOutcome L V nodes parent name V' nodes' r) :
      Effect L V nodes V' nodes' (.remove parent name cred expectDir) r
  | rename {o q : Nat} {oldName newName : List UInt8} {cred : Cred} {r : Except Stop Unit}
      (hout : RenameOutcome L V nodes o oldName q newName cred V' nodes' r) :
      Effect L V nodes V' nodes' (.rename o oldName q newName cred) r
  | denied {ino offset : Nat} {cred : Cred} {bytes : List UInt8}
      (hno : ¬Grants V (V.inode ino) cred nyfsAceWriteData) (hview : V' = V)
      (hnodes : nodes' = nodes) :
      Effect L V nodes V' nodes' (.write ino cred offset bytes) (.error (.status .Npermission))
  | write {ino offset : Nat} {cred : Cred} {bytes : List UInt8} {r : Except Stop Nat}
      (hgrants : Grants V (V.inode ino) cred nyfsAceWriteData)
      (htouches : Touches L V nodes ino V' nodes')
      (hout : FileWrite L V nodes ino offset bytes V' nodes' r) :
      Effect L V nodes V' nodes' (.write ino cred offset bytes) (r.map (fun _ => ()))
  | writeFile {ino offset : Nat} {bytes : List UInt8} {r : Except Stop Nat}
      (htouches : Touches L V nodes ino V' nodes')
      (hout : FileWrite L V nodes ino offset bytes V' nodes' r) :
      Effect L V nodes V' nodes' (.writeFile ino offset bytes) (r.map (fun _ => ()))
  | truncate {ino size : Nat} {cred : Cred} {r : Except Stop Unit}
      (htouches : Touches L V nodes ino V' nodes) (hnodes : nodes' = nodes)
      (hout : (∃ e, r = .error (.status e) ∧ V' = V ∧
          ¬(Grants V (V.inode ino) cred nyfsAceWriteData ∧ size ≤ (V.inode ino).size)) ∨
        (r = .ok () ∧ size ≤ (V.inode ino).size ∧
          V' = V.writeInode ino (sealInode ino { V.inode ino with size := size }))) :
      Effect L V nodes V' nodes' (.truncate ino cred size) r
  | setattr {ino : Nat} {cred : Cred} {change : AttrChange} {r : Except Stop Unit}
      (htouches : Touches L V nodes ino V' nodes) (hnodes : nodes' = nodes)
      (hout : (∃ e, r = .error (.status e) ∧ V' = V ∧ cred.uid ≠ 0 ∧
          cred.uid ≠ (V.inode ino).uid) ∨
        (r = .ok () ∧ V' = V.writeInode ino (sealInode ino (change.apply (V.inode ino))) ∧
          (cred.uid = 0 ∨ cred.uid = (V.inode ino).uid))) :
      Effect L V nodes V' nodes' (.setattr ino cred change) r
  | putAcl {ino : Nat} {aces : List Ace} {r : Except Stop Unit}
      (htouches : Touches L V nodes ino V' nodes') (hdata : (nodes' ino).data = (nodes ino).data)
      (hout : (∃ e, r = .error (.status e) ∧ V' = V) ∨
        (r = .ok () ∧ (V'.inode ino).bare.core = (V.inode ino).bare.core ∧
          ∀ b ∈ chainBlocks (nodes ino).data, V'.block b = V.block b)) :
      Effect L V nodes V' nodes' (.putAcl ino aces) r

theorem does_statusOf {α : Type} {m : NyfsM D α} {r : Except Stop α} (h : Does L V m r V') :
    Does L V (statusOf m) (r.map (fun _ => ())) V' := by
  cases r with
  | ok a => exact h.bind (Does.pure ())
  | error e => exact h.bind_error

/-- A request on live inodes keeps the inventory. -/
theorem Request.effect (hL : L.Valid) (h : Inventory L V nodes) (q : Request) (hfits : q.Fits)
    (hlive : ∀ i ∈ q.inodes, Live L V i) :
    ∃ r V' nodes', Does L V (q.exec : NyfsM D _) r V' ∧ Inventory L V' nodes' ∧
      Effect L V nodes V' nodes' q r := by
  cases q with
  | make isDir parent name mode cred =>
      obtain ⟨r, V', nodes', hdoes, hinv, hout⟩ := h.makeNode (D := D) hL
        (hlive parent List.mem_cons_self) isDir name mode hfits
      exact ⟨_, V', nodes', does_statusOf hdoes, hinv, Effect.make hout⟩
  | remove parent name cred expectDir =>
      obtain ⟨r, V', nodes', hdoes, hinv, hout⟩ := h.removeNode (D := D) hL
        (hlive parent List.mem_cons_self) name cred expectDir
      exact ⟨r, V', nodes', hdoes, hinv, Effect.remove hout⟩
  | rename o oldName q newName cred =>
      obtain ⟨r, V', nodes', hdoes, hinv, hout⟩ := h.renameNode (D := D) hL
        (hlive o List.mem_cons_self) (hlive q (List.mem_cons_of_mem _ List.mem_cons_self)) oldName
        newName cred
      exact ⟨r, V', nodes', hdoes, hinv, Effect.rename hout⟩
  | write ino cred offset bytes =>
      obtain ⟨r, V', nodes', hdoes, hinv, htouches, hout⟩ := h.opWrite (D := D) hL
        (hlive ino List.mem_cons_self) cred offset bytes
      refine ⟨_, V', nodes', does_statusOf hdoes, hinv, ?_⟩
      rcases hout with ⟨hno, rfl, hview, hnodes⟩ | ⟨hgrants, hout⟩
      · exact Effect.denied hno hview hnodes
      · exact Effect.write hgrants htouches hout
  | writeFile ino offset bytes =>
      have hi := hlive ino List.mem_cons_self
      obtain ⟨r, V', nodes', hdoes, hinv, htouches, -, hout⟩ :=
        h.inodeWrite (D := D) hL hi offset bytes
      exact ⟨_, V', nodes', does_statusOf (does_requireWritable.bind
        ((h.toOwned.does_readInode hL hi).bind hdoes)), hinv, Effect.writeFile htouches hout⟩
  | truncate ino cred size =>
      obtain ⟨r, V', hdoes, hinv, htouches, hout⟩ := h.opTruncate (D := D) hL
        (hlive ino List.mem_cons_self) cred
      exact ⟨r, V', nodes, hdoes, hinv, Effect.truncate htouches rfl hout⟩
  | setattr ino cred change =>
      obtain ⟨r, V', hdoes, hinv, htouches, hout⟩ := h.opSetattr (D := D) hL
        (hlive ino List.mem_cons_self) cred hfits
      exact ⟨r, V', nodes, hdoes, hinv, Effect.setattr htouches rfl hout⟩
  | putAcl ino aces =>
      obtain ⟨r, V', nodes', hdoes, hinv, htouches, hdata, hout, -⟩ := h.putAcl (D := D) hL
        (hlive ino List.mem_cons_self) hfits.1 hfits.2
      exact ⟨r, V', nodes', hdoes, hinv, Effect.putAcl htouches hdata hout⟩

/-! ## Whole runs -/

/-- A mounted volume with an inventory. -/
structure Sound (L : Layout) (v : Volume D) (nodes : Nat → Node) : Prop where
  valid : L.Valid
  mounted : Mounted L v
  inventory : Inventory L v.view nodes

/-- The answer to a lookup. -/
theorem Sound.lookupName (h : Sound L v nodes) (hi : Live L v.view i) (name : List UInt8) :
    (Nyfs.lookupName i name v).1 =
      if (v.view.inode i).type = nyfsInoTypeDir then (nodes i).lookup name
      else .error (.status .Nunsupported) := by
  obtain ⟨v', hrun, -⟩ := (h.inventory.does_lookupName (D := D) h.valid hi name).run h.valid
    h.mounted rfl
  rw [hrun]

/-- One request on inodes that lookups return. -/
theorem Sound.exec (h : Sound L v nodes) (q : Request) (hfits : q.Fits)
    (hfound : ∀ i ∈ q.inodes, Found v i) :
    ∃ nodes', Sound L (q.exec v).2 nodes' ∧
      Effect L v.view nodes (q.exec v).2.view nodes' q (q.exec v).1 := by
  obtain ⟨r, V', nodes', hdoes, hinv, heffect⟩ := q.effect (D := D) h.valid h.inventory hfits
    (fun i hi => (hfound i hi).live h.valid h.mounted h.inventory)
  obtain ⟨v', hrun, hmounted, hview, -⟩ := hdoes.run h.valid h.mounted rfl
  rw [← hview] at hinv heffect
  rw [hrun]
  exact ⟨nodes', ⟨h.valid, hmounted, hinv⟩, heffect⟩

/-- Every volume that a run reaches has an inventory. -/
theorem Reachable.inventory {allowed : Volume D → Request → Prop} (hsmall : p.Small)
    (h : Reachable allowed p d v) : ∃ nodes, Sound p.layout v nodes := by
  induction h with
  | opened hformat hopen =>
      obtain ⟨hL, hmounted, nodes, hfresh⟩ := formatted hsmall hformat hopen
      exact ⟨nodes, hL, hmounted, hfresh.inventory⟩
  | step _ q hfits hfound _ ih =>
      obtain ⟨nodes, hsound⟩ := ih
      obtain ⟨nodes', hsound', -⟩ := hsound.exec q hfits hfound
      exact ⟨nodes', hsound'⟩

/-! ## Devices in memory -/

/-- A device that keeps its bytes in memory. -/
structure MemoryDisk where
  bytes : Nat → UInt8

instance : ReliableDevice MemoryDisk where
  read d offset size := (.ok (bytesAt d.bytes offset size), d)
  write d offset bytes := (.ok (), ⟨splice d.bytes offset bytes⟩)
  content := MemoryDisk.bytes
  read_eq _ _ _ := rfl
  write_eq d offset bytes := ⟨⟨splice d.bytes offset bytes⟩, rfl, rfl⟩

/-- Parameters of a volume of 64 blocks of 512 bytes. -/
def tinyParams (inodes : Nat) : MkfsParams :=
  ⟨9, 64, inodes, []⟩

/-- Every device can be formatted to a volume of 64 blocks. -/
theorem tiny_opens (allowed : Volume D → Request → Prop) {n : Nat} (hn : n = 114 ∨ n = 118)
    (d : D) :
    ∃ v nodes, Reachable allowed (tinyParams n) d v ∧ Sound (tinyParams n).layout v nodes ∧
      Fresh (tinyParams n).layout (ReliableDevice.content d) v.view nodes := by
  have hsmall : (tinyParams n).Small := by
    rcases hn with rfl | rfl
    · exact ⟨by decide, by decide⟩
    · exact ⟨by decide, by decide⟩
  have haccepted : (tinyParams n).Accepted := by
    rcases hn with rfl | rfl
    · exact ⟨⟨by decide, by decide⟩, by decide, by decide⟩
    · exact ⟨⟨by decide, by decide⟩, by decide, by decide⟩
  have hinodes : nyfsRootIno < (tinyParams n).inodes := by
    rcases hn with rfl | rfl
    · decide
    · decide
  have hroom : planOne (tinyParams n).layout (metadataBits (tinyParams n).layout) none ≠ none := by
    rcases hn with rfl | rfl
    · decide +kernel
    · decide +kernel
  obtain ⟨d', v, hformat, hopen⟩ := format_succeeds hsmall haccepted hinodes hroom d
  obtain ⟨hL, hmounted, nodes, hfresh⟩ := formatted hsmall hformat (Opens.host hopen)
  exact ⟨v, nodes, Reachable.opened hformat (Opens.host hopen), ⟨hL, hmounted, hfresh.inventory⟩,
    hfresh⟩

/-- A name that a directory holds is found. -/
theorem Sound.found_child (h : Sound L v nodes) {dir ino type : Nat} {name : List UInt8}
    (hdir : Found v dir) (htype : (v.view.inode dir).type = nyfsInoTypeDir) (hname : NameOk name)
    (hfind : (nodes dir).find name = some (ino, type)) : Found v ino := by
  have hlive := hdir.live h.valid h.mounted h.inventory
  have hlookup := h.lookupName hlive name
  rw [if_pos htype, Node.lookup, if_neg hname.not_invalid, hfind] at hlookup
  exact Found.child hdir hlookup

/-- An inode without an access control list passes none on. -/
theorem aclPlan_of_no_aces {x : Inode} (hcount : x.aceCount = 0) (hover : x.aclOverflowCount = 0)
    (isDir : Bool) : aclPlan L V x isDir = some [] := by
  have hnone : inheritedAces V x isDir = [] := by
    simp [inheritedAces, Inode.aces, hcount, hover]
  rw [aclPlan, hnone]
  exact if_pos (Nat.zero_le _)

/-- The root directory of a fresh volume takes a new name in place. -/
theorem Fresh.takes_name {image : Nat → UInt8} (hL : L.Valid) (h : Fresh L image V nodes)
    (hcount : 2 < L.inodeCount) {name : List UInt8} (hname : NameOk name) :
    MakeStarts L V (nodes nyfsRootIno) (V.inode nyfsRootIno) name ⟨0, 0⟩ ∧
      firstClear V.inodeBit L.inodeCount 0 = some 2 ∧
      (∀ isDir, aclPlan L V (V.inode nyfsRootIno) isDir = some []) ∧
      capacity L (nodes nyfsRootIno).table = L.blockSize ∧
      (nodes nyfsRootIno).free + 24 + name.length ≤ capacity L (nodes nyfsRootIno).table := by
  have hfirst : firstClear V.inodeBit L.inodeCount 0 = some 2 := by
    obtain ⟨n, hn⟩ := Nat.exists_eq_add_of_lt hcount
    rw [hn, h.inodeBit, show 2 + n + 1 = n + 3 by omega]
    simp [firstClear, nyfsRootIno]
  have hcapacity : capacity L (nodes nyfsRootIno).table = L.blockSize := by
    obtain ⟨d, ls, t, -, hdata, -⟩ := h.table
    rw [capacity, hdata, List.length_singleton, Nat.one_mul]
  refine ⟨⟨?_, Or.inl rfl, hname, ?_, ?_⟩, hfirst, ?_, hcapacity, ?_⟩
  · rw [h.root]
    rfl
  · rw [Node.find, h.empty]
    rfl
  · rw [hfirst]
    exact Option.some_ne_none 2
  · exact aclPlan_of_no_aces (by rw [h.root]; rfl) (by rw [h.root]; rfl)
  · have hlen : name.length ≤ 255 := hname.le
    have hsize := hL.blockSize_ge
    rw [hcapacity, h.free]
    omega

/-- A fresh volume on which one file has been made. -/
structure OneFile (L : Layout) (V : View) (nodes : Nat → Node) (name : List UInt8) : Prop where
  live : Live L V 2
  find : (nodes nyfsRootIno).find = Function.update (fun _ => none) name (some (2, nyfsDirentTypeFile))
  type : (V.inode 2).type = nyfsInoTypeFile
  size : (V.inode 2).size = 0
  data : (nodes 2).data = []
  bits : ∃ d ls t, planOne L (metadataBits L) none = some (d, ls, t) ∧
    V.blockBit = mark (metadataBits L) (d :: ls)
  rootType : (V.inode nyfsRootIno).type = nyfsInoTypeDir
  rootAcl : ∀ isDir, aclPlan L V (V.inode nyfsRootIno) isDir = some []
  rootFree : (nodes nyfsRootIno).free = 160 + recordSize name.length
  rootCapacity : capacity L (nodes nyfsRootIno).table = L.blockSize
  inodeBit : V.inodeBit = Function.update (Function.update (Function.update (fun _ => false) 0 true)
    nyfsRootIno true) 2 true

/-- A file can be made on a fresh volume. -/
theorem Fresh.oneFile {image : Nat → UInt8} (hsound : Sound L v nodes)
    (h : Fresh L image v.view nodes) (hcount : 2 < L.inodeCount) {name : List UInt8}
    (hname : NameOk name) :
    ∃ nodes', Sound L ((Request.make false nyfsRootIno name 0o644 ⟨0, 0⟩).exec v).2 nodes' ∧
      OneFile L ((Request.make false nyfsRootIno name 0o644 ⟨0, 0⟩).exec v).2.view nodes' name := by
  obtain ⟨hstarts, hfirst, hacl, hcapacity, hroom⟩ := h.takes_name hsound.valid hcount hname
  have hlive := h.inventory.root.1
  obtain ⟨nodes', hsound', heffect⟩ := hsound.exec (.make false nyfsRootIno name 0o644 ⟨0, 0⟩)
    ⟨by decide, by decide⟩ (fun i hi => by rw [List.mem_singleton.mp hi]; exact Found.root)
  refine ⟨nodes', hsound', ?_⟩
  generalize (Request.make false nyfsRootIno name 0o644 ⟨0, 0⟩).exec v = run at hsound' heffect ⊢
  obtain ⟨r, w⟩ := run
  dsimp only at hsound' heffect ⊢
  cases heffect with
  | make hout =>
      cases hout with
      | failed e leaked _ _ _ _ _ hno =>
          exact absurd ⟨hstarts, [], [], hacl false, rfl, Or.inl hroom⟩ hno
      | made i _ hmade _ hplace =>
          obtain rfl : i = 2 := by
            have hsome := hmade.first
            rw [hfirst] at hsome
            exact (Option.some.inj hsome).symm
          obtain ⟨htable, hbits⟩ := hplace hroom
          have hkept := hmade.kept nyfsRootIno hlive
          have htype : (w.view.inode 2).type = nyfsInoTypeFile :=
            congrArg (fun x : Inode => x.type) hmade.attributes
          have hroot : (w.view.inode nyfsRootIno).core = (v.view.inode nyfsRootIno).core :=
            hkept.core
          refine ⟨⟨by decide, hcount, ?_⟩, ?_, htype, ?_, hmade.data, ?_, ?_, ?_, ?_, ?_, ?_⟩
          · rw [hmade.inodeBit, Function.update_self]
          · have hempty : (nodes nyfsRootIno).find = fun _ => none := by
              funext other
              rw [Node.find, h.empty]
              rfl
            rw [hmade.parent, hempty, direntType, htype]
            rfl
          · exact congrArg (fun x : Inode => x.size) hmade.attributes
          · obtain ⟨d, ls, t, hplan, -, hblockBit, -⟩ := h.table
            refine ⟨d, ls, t, hplan, ?_⟩
            rw [hbits [] [] (hacl false) rfl, List.append_nil, mark_nil, hblockBit]
          · exact (congrArg (fun x : Inode => x.type) hroot).trans hstarts.type
          · intro isDir
            have hcount : (w.view.inode nyfsRootIno).aceCount = 0 := by
              have hsame := congrArg (fun x : Inode => x.aceCount) hroot
              rw [h.root] at hsame
              exact hsame
            have hover : (w.view.inode nyfsRootIno).aclOverflowCount = 0 := by
              have hsame := congrArg (fun x : Inode => x.aclOverflowCount) hroot
              rw [h.root] at hsame
              exact hsame
            exact aclPlan_of_no_aces hcount hover isDir
          · rw [hmade.free, h.free]
          · rw [htable, hcapacity]
          · rw [hmade.inodeBit, h.inodeBit]

/-- The root directory holds a name. -/
structure InRoot (V : View) (nodes : Nat → Node) (name : List UInt8) (ino : Nat) : Prop where
  nameOk : NameOk name
  type : (V.inode nyfsRootIno).type = nyfsInoTypeDir
  find : ∃ type, (nodes nyfsRootIno).find name = some (ino, type)

theorem InRoot.found {name : List UInt8} (h : InRoot v.view nodes name i) (hsound : Sound L v nodes) :
    Found v i := by
  obtain ⟨type, hfind⟩ := h.find
  exact hsound.found_child Found.root h.type h.nameOk hfind

theorem InRoot.touched {name : List UInt8} {ino : Nat} (h : InRoot V nodes name ino)
    (hroot : Live L V nyfsRootIno) (htouches : Touches L V nodes i V' nodes')
    (hne : nyfsRootIno ≠ i) : InRoot V' nodes' name ino := by
  refine ⟨h.nameOk, ?_, ?_⟩
  · rw [Inode.type_of_core (htouches.others nyfsRootIno hroot hne).core]
    exact h.type
  · rw [htouches.finds]
    exact h.find

theorem OneFile.inRoot {name : List UInt8} (h : OneFile L V nodes name) (hname : NameOk name) :
    InRoot V nodes name 2 := by
  refine ⟨hname, h.rootType, nyfsDirentTypeFile, ?_⟩
  rw [h.find, Function.update_self]

/-- The name every example volume gives its file. -/
theorem nameOk_a : NameOk [97] :=
  ⟨by decide, by decide⟩

/-- A volume of 64 blocks with one file on it. -/
theorem tiny_file (allowed : Volume D → Request → Prop) {n : Nat} (hn : n = 114 ∨ n = 118) (d : D)
    {name : List UInt8} (hname : NameOk name)
    (hallowed : ∀ v, allowed v (.make false nyfsRootIno name 0o644 ⟨0, 0⟩)) :
    ∃ v nodes, Reachable allowed (tinyParams n) d v ∧ Sound (tinyParams n).layout v nodes ∧
      OneFile (tinyParams n).layout v.view nodes name := by
  obtain ⟨v, nodes, hreach, hsound, hfresh⟩ := tiny_opens allowed hn d
  have hcount : 2 < (tinyParams n).layout.inodeCount := by
    rcases hn with rfl | rfl
    · decide
    · decide
  obtain ⟨nodes', hsound', hfile⟩ := hfresh.oneFile hsound hcount hname
  exact ⟨_, nodes', Reachable.step hreach (.make false nyfsRootIno name 0o644 ⟨0, 0⟩)
    ⟨by decide, by decide⟩
    (fun i hi => by rw [List.mem_singleton.mp hi]; exact Found.root) (hallowed v), hsound', hfile⟩

/-- The blocks of the root directory's table on a volume of 64 blocks. -/
theorem tiny_plan {d : Nat} {ls : List Nat} {t : Tail}
    (hplan : planOne (tinyParams 114).layout (metadataBits (tinyParams 114).layout) none =
      some (d, ls, t)) : d :: ls = [60, 61] := by
  have hfirst : (planOne (tinyParams 114).layout (metadataBits (tinyParams 114).layout) none).map
      (fun q => q.1 :: q.2.1) = some [60, 61] := by decide +kernel
  rw [hplan] at hfirst
  exact Option.some.inj hfirst

/-- The blocks that are taken on a volume of 64 blocks with one file. -/
theorem OneFile.bits_eq {name : List UInt8} (h : OneFile (tinyParams 114).layout V nodes name) :
    V.blockBit = mark (metadataBits (tinyParams 114).layout) [60, 61] := by
  obtain ⟨d, ls, t, hplan, hbits⟩ := h.bits
  rw [hbits, tiny_plan hplan]

/-- The blocks that are taken on a fresh volume of 64 blocks. -/
theorem Fresh.bits_eq {image : Nat → UInt8} (h : Fresh (tinyParams 114).layout image V nodes) :
    V.blockBit = mark (metadataBits (tinyParams 114).layout) [60, 61] := by
  obtain ⟨d, ls, t, hplan, -, hbits, -⟩ := h.table
  rw [hbits, tiny_plan hplan]

/-! ## The owners of the blocks -/

/-- The blocks that an inode uses: the list blocks and the covered blocks of its data and of its
hash table, and the block of its access control list. -/
structure Uses (L : Layout) (V : View) (x : Inode) (blocks : List Nat) : Prop where
  parts : ∃ data table, Chain L V x.dataExtentRoot data ∧ Chain L V x.dirHashRoot table ∧
    blocks = chainBlocks data ++
      (if x.aclOverflowBlock = nyfsBlknoNone then [] else [x.aclOverflowBlock]) ++
        chainBlocks table

/-- The inodes other than the reserved one whose bits are set. -/
def liveInodes (L : Layout) (V : View) : List Nat :=
  (List.range L.inodeCount).filter (fun i => decide (i ≠ 0) && V.inodeBit i)

theorem mem_liveInodes : i ∈ liveInodes L V ↔ Live L V i := by
  rw [liveInodes, List.mem_filter, List.mem_range, Bool.and_eq_true, decide_eq_true_iff]
  constructor
  · intro h
    exact ⟨h.2.1, h.1, h.2.2⟩
  · intro h
    exact ⟨h.lt, h.ne_zero, h.set⟩

theorem Node.Holds.uses {x : Inode} {n : Node} (hL : L.Valid) (h : n.Holds L V x) :
    Uses L V x n.blocks := by
  have hacl : n.acl =
      if x.aclOverflowBlock = nyfsBlknoNone then [] else [x.aclOverflowBlock] := by
    rcases h.acl.block with ⟨hnone, hacl⟩ | ⟨hdata, hacl⟩
    · rw [if_pos hnone, hacl]
    · have hne : x.aclOverflowBlock ≠ nyfsBlknoNone := hdata.ne_zero hL
      rw [if_neg hne, hacl]
  have htable : Chain L V x.dirHashRoot n.table := by
    rcases h.type with htype | htype
    · obtain ⟨hroot, htable, -⟩ := h.file htype
      rw [hroot, htable]
      exact Chain.nil
    · exact (h.dir htype).1.stream.chain
  exact ⟨n.data, n.table, h.data.chain, htable, by rw [Node.blocks, Node.body, hacl]⟩

/-- The blocks of a live inode lie behind the metadata. -/
theorem Node.Holds.isData {x : Inode} {n : Node} (h : n.Holds L V x) {b : Nat}
    (hb : b ∈ n.blocks) : L.IsData b := by
  rcases List.mem_append.mp hb with hb | hb
  · rcases List.mem_append.mp hb with hb | hb
    · exact h.data.chain.isData b hb
    · rcases h.acl.block with ⟨-, hacl⟩ | ⟨hdata, hacl⟩
      · rw [hacl] at hb
        cases hb
      · rw [hacl, List.mem_singleton] at hb
        rw [hb]
        exact hdata
  · rcases h.type with htype | htype
    · rw [(h.file htype).2.1] at hb
      cases hb
    · exact (h.dir htype).1.stream.chain.isData b hb

/-- No block of an inventory is used twice. -/
theorem Inventory.nodup_blocks (h : Inventory L V nodes) :
    (List.range L.firstDataBlock ++ (liveInodes L V).flatMap (fun i => (nodes i).blocks)).Nodup := by
  have hlive : (liveInodes L V).Nodup := List.Nodup.filter _ List.nodup_range
  refine List.Nodup.append List.nodup_range ?_ ?_
  · refine List.nodup_flatMap.mpr ⟨fun i hi => h.nodup i (mem_liveInodes.mp hi), ?_⟩
    refine List.Pairwise.imp_of_mem ?_ hlive
    intro i j hi hj hne
    exact h.apart i j (mem_liveInodes.mp hi) (mem_liveInodes.mp hj) hne
  · intro b hb hb'
    obtain ⟨i, hi, hmem⟩ := List.mem_flatMap.mp hb'
    have hge := ((h.holds i (mem_liveInodes.mp hi)).isData hmem).ge
    rw [List.mem_range] at hb
    omega

/-- In every volume that a run reaches no block has two uses, the used blocks are set in the
bitmap, and the counters agree with the bitmaps. -/
theorem block_ownership (hsmall : p.Small) (h : Reachable anyRequest p d v) :
    ∃ blocksOf : Nat → List Nat,
      (∀ i, Live v.sb.layout v.view i → Uses v.sb.layout v.view (v.view.inode i) (blocksOf i)) ∧
      (List.range v.sb.layout.firstDataBlock ++
        (liveInodes v.sb.layout v.view).flatMap blocksOf).Nodup ∧
      (∀ b ∈ List.range v.sb.layout.firstDataBlock ++
        (liveInodes v.sb.layout v.view).flatMap blocksOf, v.view.blockBit b = true) ∧
      v.sb.freeBlocks = clearCount v.view.blockBit v.sb.totalBlocks ∧
      v.sb.freeInodeCount = clearCount v.view.inodeBit v.sb.inodeCount := by
  obtain ⟨nodes, hsound⟩ := h.inventory hsmall
  have hinv := hsound.inventory
  have hlayout : v.sb.layout = p.layout := hsound.mounted.layout
  rw [hlayout]
  refine ⟨fun i => (nodes i).blocks, fun i hi => (hinv.holds i hi).uses hsound.valid,
    hinv.nodup_blocks, ?_, ?_, ?_⟩
  · intro b hb
    rcases List.mem_append.mp hb with hb | hb
    · exact hinv.ready.metadata b (List.mem_range.mp hb)
    · obtain ⟨i, hi, hmem⟩ := List.mem_flatMap.mp hb
      exact hinv.set i (mem_liveInodes.mp hi) b hmem
  · have htotal : v.sb.totalBlocks = p.layout.totalBlocks := by
      rw [← hlayout]
      rfl
    rw [htotal]
    exact hinv.ready.freeBlocks
  · have hcount : v.sb.inodeCount = p.layout.inodeCount := by
      rw [← hlayout]
      rfl
    rw [hcount]
    exact hinv.ready.freeInodes

theorem block_ownership_small : ∃ v : Volume MemoryDisk,
    Reachable anyRequest (tinyParams 114) ⟨fun _ => 0⟩ v ∧ (tinyParams 114).Small ∧
      ∃ blocksOf : Nat → List Nat,
        (∀ i, Live v.sb.layout v.view i → Uses v.sb.layout v.view (v.view.inode i) (blocksOf i)) ∧
        (List.range v.sb.layout.firstDataBlock ++
          (liveInodes v.sb.layout v.view).flatMap blocksOf).Nodup ∧
        (∀ b ∈ List.range v.sb.layout.firstDataBlock ++
          (liveInodes v.sb.layout v.view).flatMap blocksOf, v.view.blockBit b = true) ∧
        v.sb.freeBlocks = clearCount v.view.blockBit v.sb.totalBlocks ∧
        v.sb.freeInodeCount = clearCount v.view.inodeBit v.sb.inodeCount := by
  have hsmall : (tinyParams 114).Small := ⟨by decide, by decide⟩
  obtain ⟨v, -, hreach, -⟩ := tiny_opens (D := MemoryDisk) anyRequest (Or.inl rfl) ⟨fun _ => 0⟩
  -- The run makes a file in the root directory.
  have hstep := Reachable.step hreach (.make false nyfsRootIno [97] 0o644 ⟨0, 0⟩)
    ⟨by decide, by decide⟩
    (fun i hi => by
      rw [List.mem_singleton.mp hi]
      exact Found.root) trivial
  exact ⟨_, hstep, hsmall, block_ownership hsmall hstep⟩

end Nyfs
end Nyxis
