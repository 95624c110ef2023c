import Nyxis.Lib.Bitmap
import Nyxis.Nyfs.CacheAnswers

/-!
# Failed creations and the pools

A creation resolves the directory of its path, changes the volume and then takes a vnode, its data and
a dentry from three pools.  When a pool is exhausted behind the change of the volume, the call fails
and the new name stays; when only the dentries are exhausted, the data of a vnode is lost as well.

Main results:

- Theorem {lit}`Coherent.parentLoop_slots`: what the resolution of a directory takes from the pools.
- Theorem {lit}`create_error_changes_nothing`: a failed creation, with room in the pools.
- Theorem {lit}`create_error_leaves_name`: a failed creation without it.
-/

namespace Nyxis
namespace Nyfs

open Bitmap
open Vfs (VfsState Drivers Handle Name cachedChild)

variable {D : Type} [ReliableDevice D] {L : Layout} {v v' : Volume D} {nodes nodes' : Nat → Node}
variable {k r : Nat} {s s' s'' : VfsState (NyfsState D)} {drv drv' : Drivers (NyfsState D)}
variable {kids kids' : Nat → List Nat} {ino ino' : Nat → Nat} {cred : Cred} {name : Name}
variable {i t n d c cur : Nat}

/-! ## Counting slots -/

/-- Numbers of slots of the three pools: dentries, vnodes and the data of vnodes. -/
structure Slots where
  dentries : Nat
  vnodes : Nat
  vnodeData : Nat
deriving DecidableEq

/-- Some more slots of each pool. -/
def Slots.plus (a : Slots) (count : Nat) : Slots :=
  ⟨a.dentries + count, a.vnodes + count, a.vnodeData + count⟩

theorem Slots.plus_plus (a : Slots) (x y : Nat) : (a.plus x).plus y = a.plus (x + y) := by
  simp only [Slots.plus, Nat.add_assoc]

/-- The slots in use. -/
def usedSlots (s : VfsState (NyfsState D)) : Slots where
  dentries := (List.range Vfs.vfsMaxDentries).countP (fun i => (s.dentries i).inUse)
  vnodes := (List.range Vfs.vfsMaxVnodes).countP (fun i => (s.drv.vnodes i).inUse)
  vnodeData := (List.range nyfsMaxVnodeData).countP (fun i => (s.drv.fs.vnodeData i).inUse)

/-- The slots that are free. -/
def freeSlots (s : VfsState (NyfsState D)) : Slots where
  dentries := clearCount (fun i => (s.dentries i).inUse) Vfs.vfsMaxDentries
  vnodes := clearCount (fun i => (s.drv.vnodes i).inUse) Vfs.vfsMaxVnodes
  vnodeData := clearCount (fun i => (s.drv.fs.vnodeData i).inUse) nyfsMaxVnodeData

theorem countP_add_clearCount (inUse : Nat → Bool) (count : Nat) :
    (List.range count).countP inUse + clearCount inUse count = count := by
  have hsplit := List.length_eq_countP_add_countP (l := List.range count) inUse
  rw [List.length_range] at hsplit
  rw [clearCount]
  have hcongr : (List.range count).countP (fun i => !inUse i) =
      (List.range count).countP (fun i => decide ¬(inUse i = true)) := by
    refine List.countP_congr (fun i _ => ?_)
    simp
  omega

omit [ReliableDevice D] in
/-- What is taken is in use and no longer free. -/
theorem usedSlots_of_freeSlots {a b : Nat}
    (h : (freeSlots s').plus b = (freeSlots s).plus a) :
    (usedSlots s').plus a = (usedSlots s).plus b := by
  obtain ⟨hdentries, hvnodes, hdata⟩ := Slots.mk.inj h
  have h₁ := countP_add_clearCount (fun i => (s.dentries i).inUse) Vfs.vfsMaxDentries
  have h₂ := countP_add_clearCount (fun i => (s'.dentries i).inUse) Vfs.vfsMaxDentries
  have h₃ := countP_add_clearCount (fun i => (s.drv.vnodes i).inUse) Vfs.vfsMaxVnodes
  have h₄ := countP_add_clearCount (fun i => (s'.drv.vnodes i).inUse) Vfs.vfsMaxVnodes
  have h₅ := countP_add_clearCount (fun i => (s.drv.fs.vnodeData i).inUse) nyfsMaxVnodeData
  have h₆ := countP_add_clearCount (fun i => (s'.drv.fs.vnodeData i).inUse) nyfsMaxVnodeData
  dsimp only [freeSlots] at hdentries hvnodes hdata
  rw [Slots.plus, Slots.plus, Slots.mk.injEq]
  dsimp only [usedSlots]
  omega

theorem clearCount_of_firstFree_none {inUse : Nat → Bool} {count : Nat}
    (h : Vfs.firstFree inUse count = none) : clearCount inUse count = 0 := by
  rw [clearCount, List.countP_eq_zero]
  intro i hi
  have hused := List.find?_eq_none.mp h i hi
  simpa using hused

theorem clearCount_of_firstFree {inUse : Nat → Bool} {count : Nat}
    (h : Vfs.firstFree inUse count = some i) :
    clearCount (Function.update inUse i true) count + 1 = clearCount inUse count := by
  obtain ⟨hlt, hfree⟩ := Vfs.firstFree_spec h
  exact clearCount_set hlt hfree

omit [ReliableDevice D] in
theorem freeSlots_congr (hdentries : s'.dentries = s.dentries) (hvnodes : SameVnodes s.drv s'.drv)
    (hdata : s'.drv.fs.vnodeData = s.drv.fs.vnodeData) : freeSlots s' = freeSlots s := by
  have hinUse : (fun i => (s'.drv.vnodes i).inUse) = fun i => (s.drv.vnodes i).inUse :=
    funext hvnodes
  rw [freeSlots, freeSlots, hdentries, hdata, hinUse]

omit [ReliableDevice D] in
theorem inUse_withVnode (drv : Drivers (NyfsState D)) (n slot k t type : Nat) :
    ((fun i => ((withVnode drv n slot k t type).vnodes i).inUse) =
        Function.update (fun i => (drv.vnodes i).inUse) n true) ∧
      (fun i => ((withVnode drv n slot k t type).fs.vnodeData i).inUse) =
        Function.update (fun i => (drv.fs.vnodeData i).inUse) slot true := by
  constructor
  · funext i
    rw [withVnode]
    dsimp only
    by_cases hi : i = n
    · rw [hi, Function.update_self, Function.update_self]
    · rw [Function.update_of_ne hi, Function.update_of_ne hi]
  · funext i
    rw [withVnode]
    dsimp only
    by_cases hi : i = slot
    · rw [hi, Function.update_self, Function.update_self]
    · rw [Function.update_of_ne hi, Function.update_of_ne hi]

omit [ReliableDevice D] in
/-- Entering a child takes a slot of each pool. -/
theorem freeSlots_entered {slot type : Nat} (hn : freeVnodeSlot s.drv = some n)
    (hslot : freeDataSlot s.drv = some slot) (hc : freeDentrySlot s = some c) :
    (freeSlots { s with
        dentries := entered s.dentries cur c name n
        drv := withVnode s.drv n slot k t type }).plus 1 = freeSlots s := by
  obtain ⟨hvnodes, hdata⟩ := inUse_withVnode s.drv n slot k t type
  have hdentries : (fun i => (entered s.dentries cur c name n i).inUse) =
      Function.update (fun i => (s.dentries i).inUse) c true := by
    funext i
    rw [entered, Vfs.attached_inUse]
    by_cases hi : i = c
    · rw [hi, Function.update_self, Function.update_self]
      rfl
    · rw [Function.update_of_ne hi, Function.update_of_ne hi]
  rw [freeSlots, freeSlots, Slots.plus, Slots.mk.injEq]
  dsimp only
  rw [hdentries, hvnodes, hdata]
  exact ⟨clearCount_of_firstFree hc, clearCount_of_firstFree hn, clearCount_of_firstFree hslot⟩

/-! ## The directories of a path -/

/-- The number of directories in a cursor. -/
def cursorDepth : (fuel : Nat) → List UInt8 → Nat
  | 0, _ => 0
  | fuel + 1, cursor =>
      if cursor = [] then 0
      else
        match Vfs.parseSegment cursor with
        | .error _ => 0
        | .ok (name, rest) =>
            if name = [] ∨ Vfs.skipSlashes rest = [] then 0
            else cursorDepth fuel (Vfs.skipSlashes rest) + 1

/-- The number of directories of a cursor that are cached. -/
def cachedDepth (ds : Nat → Vfs.Dentry) : (fuel : Nat) → (cur : Nat) → List UInt8 → Nat
  | 0, _, _ => 0
  | fuel + 1, cur, cursor =>
      if cursor = [] then 0
      else
        match Vfs.parseSegment cursor with
        | .error _ => 0
        | .ok (name, rest) =>
            if name = [] ∨ Vfs.skipSlashes rest = [] then 0
            else
              match cachedChild ds cur name with
              | none => 0
              | some c => cachedDepth ds fuel c (Vfs.skipSlashes rest) + 1

/-- The number of directories of a cursor that lookups find on the volume. -/
def foundDepth (v : Volume D) (cred : Cred) : (fuel : Nat) → (i : Nat) → List UInt8 → Nat
  | 0, _, _ => 0
  | fuel + 1, i, cursor =>
      if cursor = [] then 0
      else
        match Vfs.parseSegment cursor with
        | .error _ => 0
        | .ok (name, rest) =>
            if name = [] ∨ Vfs.skipSlashes rest = [] then 0
            else
              match (lookupNode i name cred v).1 with
              | .error _ => 0
              | .ok (t, _) => foundDepth v cred fuel t (Vfs.skipSlashes rest) + 1

/-- The number of directories of a cursor that a resolution finds on the volume and has to enter into
the cache: those behind the last cached one. -/
def missingDepth (k : Nat) (s : VfsState (NyfsState D)) : (fuel : Nat) → (cur : Nat) → List UInt8 → Nat
  | 0, _, _ => 0
  | fuel + 1, cur, cursor =>
      if cursor = [] then 0
      else
        match Vfs.parseSegment cursor with
        | .error _ => 0
        | .ok (name, rest) =>
            if name = [] ∨ Vfs.skipSlashes rest = [] then 0
            else
              match cachedChild s.dentries cur name with
              | some c => missingDepth k s fuel c (Vfs.skipSlashes rest)
              | none =>
                  match (s.dentries cur).node with
                  | none => 0
                  | some n => foundDepth (s.drv.fs.volumes k) s.drv.fs.cred (fuel + 1)
                      (s.drv.vnodes n).inodeId cursor

/-- A cursor with a directory in front. -/
structure InFront (cursor : List UInt8) (name : Name) (rest : List UInt8) : Prop where
  cursor_ne : cursor ≠ []
  parse : ∃ tail, Vfs.parseSegment cursor = .ok (name, tail) ∧ rest = Vfs.skipSlashes tail
  name_ne : name ≠ []
  rest_ne : rest ≠ []

section InFront

variable {cursor rest : List UInt8}

theorem InFront.cursorDepth_eq (h : InFront cursor name rest) (fuel : Nat) :
    cursorDepth (fuel + 1) cursor = cursorDepth fuel rest + 1 := by
  obtain ⟨tail, hparse, rfl⟩ := h.parse
  rw [cursorDepth, if_neg h.cursor_ne, hparse]
  dsimp only
  rw [if_neg (not_or.mpr ⟨h.name_ne, h.rest_ne⟩)]

theorem InFront.cachedDepth_eq (h : InFront cursor name rest) (ds : Nat → Vfs.Dentry) (fuel cur : Nat) :
    cachedDepth ds (fuel + 1) cur cursor =
      match cachedChild ds cur name with
      | none => 0
      | some c => cachedDepth ds fuel c rest + 1 := by
  obtain ⟨tail, hparse, rfl⟩ := h.parse
  rw [cachedDepth, if_neg h.cursor_ne, hparse]
  dsimp only
  rw [if_neg (not_or.mpr ⟨h.name_ne, h.rest_ne⟩)]

theorem InFront.foundDepth_eq (h : InFront cursor name rest) (v : Volume D) (cred : Cred)
    (fuel i : Nat) :
    foundDepth v cred (fuel + 1) i cursor =
      match (lookupNode i name cred v).1 with
      | .error _ => 0
      | .ok (t, _) => foundDepth v cred fuel t rest + 1 := by
  obtain ⟨tail, hparse, rfl⟩ := h.parse
  rw [foundDepth, if_neg h.cursor_ne, hparse]
  dsimp only
  rw [if_neg (not_or.mpr ⟨h.name_ne, h.rest_ne⟩)]

theorem InFront.missingDepth_eq (h : InFront cursor name rest) (k : Nat)
    (s : VfsState (NyfsState D)) (fuel cur : Nat) :
    missingDepth k s (fuel + 1) cur cursor =
      match cachedChild s.dentries cur name with
      | some c => missingDepth k s fuel c rest
      | none =>
          match (s.dentries cur).node with
          | none => 0
          | some n => foundDepth (s.drv.fs.volumes k) s.drv.fs.cred (fuel + 1)
              (s.drv.vnodes n).inodeId cursor := by
  obtain ⟨tail, hparse, rfl⟩ := h.parse
  rw [missingDepth, if_neg h.cursor_ne, hparse]
  dsimp only
  rw [if_neg (not_or.mpr ⟨h.name_ne, h.rest_ne⟩)]

theorem InFront.parentLoop_eq (h : InFront cursor name rest) (fuel cur : Nat) :
    (Vfs.parentLoop nyfsDrivers (fuel + 1) cur cursor : Vfs.VfsM (NyfsState D) _) =
      (Vfs.childStep nyfsDrivers .NnotFound cur name >>= fun child =>
        Vfs.parentLoop nyfsDrivers fuel child rest) := by
  obtain ⟨tail, hparse, rfl⟩ := h.parse
  rw [Vfs.parentLoop, if_neg h.cursor_ne, hparse]
  dsimp only
  rw [if_neg h.name_ne, if_neg h.rest_ne]

/-- A cursor has a directory in front, or the resolution ends at once. -/
theorem parentLoop_cases (k fuel cur : Nat) (cursor : List UInt8) (s : VfsState (NyfsState D)) :
    (∃ name rest, InFront cursor name rest) ∨
      ((Vfs.parentLoop nyfsDrivers (fuel + 1) cur cursor s).2 = s ∧ cursorDepth (fuel + 1) cursor = 0 ∧
        (∀ ds : Nat → Vfs.Dentry, cachedDepth ds (fuel + 1) cur cursor = 0) ∧
        missingDepth k s (fuel + 1) cur cursor = 0 ∧
        ∀ i, foundDepth (s.drv.fs.volumes k) s.drv.fs.cred (fuel + 1) i cursor = 0) := by
  by_cases hempty : cursor = []
  · refine Or.inr ⟨?_, ?_, fun ds => ?_, ?_, fun i => ?_⟩
    · rw [Vfs.parentLoop, if_pos hempty]
      rfl
    · rw [cursorDepth, if_pos hempty]
    · rw [cachedDepth, if_pos hempty]
    · rw [missingDepth, if_pos hempty]
    · rw [foundDepth, if_pos hempty]
  cases hparse : Vfs.parseSegment cursor with
  | error e =>
      refine Or.inr ⟨?_, ?_, fun ds => ?_, ?_, fun i => ?_⟩
      · rw [Vfs.parentLoop, if_neg hempty, hparse]
        rfl
      · rw [cursorDepth, if_neg hempty, hparse]
      · rw [cachedDepth, if_neg hempty, hparse]
      · rw [missingDepth, if_neg hempty, hparse]
      · rw [foundDepth, if_neg hempty, hparse]
  | ok segment =>
      obtain ⟨name, tail⟩ := segment
      by_cases hlast : name = [] ∨ Vfs.skipSlashes tail = []
      · refine Or.inr ⟨?_, ?_, fun ds => ?_, ?_, fun i => ?_⟩
        · rw [Vfs.parentLoop, if_neg hempty, hparse]
          dsimp only
          by_cases hname : name = []
          · rw [if_pos hname]
            rfl
          · rw [if_neg hname, if_pos (hlast.resolve_left hname)]
            rfl
        · rw [cursorDepth, if_neg hempty, hparse]
          exact if_pos hlast
        · rw [cachedDepth, if_neg hempty, hparse]
          exact if_pos hlast
        · rw [missingDepth, if_neg hempty, hparse]
          exact if_pos hlast
        · rw [foundDepth, if_neg hempty, hparse]
          exact if_pos hlast
      · rw [not_or] at hlast
        exact Or.inl ⟨name, _, hempty, ⟨tail, hparse, rfl⟩, hlast.1, hlast.2⟩

end InFront

/-- Below a dentry without children nothing is cached. -/
theorem Coherent.depths_of_no_kids (h : Coherent k L r s kids ino nodes) (hnone : kids cur = [])
    (hcur : Cached kids r cur) (fuel : Nat) (cursor : List UInt8) :
    cachedDepth s.dentries fuel cur cursor = 0 ∧ missingDepth k s fuel cur cursor =
      foundDepth (s.drv.fs.volumes k) s.drv.fs.cred fuel (ino cur) cursor := by
  cases fuel with
  | zero => exact ⟨rfl, rfl⟩
  | succ fuel =>
      rcases parentLoop_cases k fuel cur cursor s with ⟨name, rest, hfront⟩ |
        ⟨-, -, hcached, hmissing, hfound⟩
      · have hchild : cachedChild s.dentries cur name = none := by
          rw [h.tree.tree.cachedChild_eq, hnone, List.find?_nil]
        obtain ⟨-, n, hnode, slot, hvnode, -⟩ := h.shows cur hcur
        constructor
        · rw [hfront.cachedDepth_eq, hchild]
        · rw [hfront.missingDepth_eq, hchild, hnode]
          dsimp only
          rw [hvnode]
      · exact ⟨hcached _, hmissing.trans (hfound _).symm⟩

/-! ## What a resolution takes -/

/-- The dentries do not run out before the vnodes and their data. -/
def Slots.FitDirectories (a : Slots) (count : Nat) : Prop :=
  a.dentries < count → a.vnodes ≤ a.dentries ∨ a.vnodeData ≤ a.dentries

/-- What one step of a resolution does to the pools: nothing; the child takes a slot of each; or the
dentries alone are exhausted, and the data of the vnode is lost. -/
inductive StepSlots (k : Nat) (s : VfsState (NyfsState D)) (i cur : Nat) (name : Name) :
    Except Stop Nat → VfsState (NyfsState D) → Prop
  | cached (c : Nat) (hchild : cachedChild s.dentries cur name = some c) :
      StepSlots k s i cur name (.ok c) s
  | entered (c t : Nat) (x : Inode) (s' : VfsState (NyfsState D))
      (hnone : cachedChild s.dentries cur name = none)
      (hlookup : (lookupNode i name s.drv.fs.cred (s.drv.fs.volumes k)).1 = .ok (t, x))
      (hspent : (freeSlots s').plus 1 = freeSlots s) : StepSlots k s i cur name (.ok c) s'
  | failed (e : Stop) (s' : VfsState (NyfsState D)) (hnone : cachedChild s.dentries cur name = none)
      (hdentries : s'.dentries = s.dentries) (hsame : freeSlots s' = freeSlots s) :
      StepSlots k s i cur name (.error e) s'
  | leaked (t : Nat) (x : Inode) (s' : VfsState (NyfsState D))
      (hnone : cachedChild s.dentries cur name = none)
      (hlookup : (lookupNode i name s.drv.fs.cred (s.drv.fs.volumes k)).1 = .ok (t, x))
      (hdentries : s'.dentries = s.dentries) (hno : (freeSlots s).dentries = 0)
      (hvnodes : 0 < (freeSlots s).vnodes)
      (hlost : (freeSlots s').vnodeData + 1 = (freeSlots s).vnodeData) :
      StepSlots k s i cur name (.error (.status .NoutOfMemory)) s'

theorem ChildStep.slots {res : Except Stop Nat} (h : ChildStep k s i cur name res s') :
    StepSlots k s i cur name res s' := by
  cases h with
  | cached c hchild => exact StepSlots.cached c hchild
  | refused e hnone hlookup => exact StepSlots.failed e s hnone rfl rfl
  | noVnode t x drv hnone hlookup hno hfs hkeeps hsame =>
      exact StepSlots.failed _ _ hnone rfl
        (freeSlots_congr rfl hsame (congrArg NyfsState.vnodeData hfs))
  | noDentry t x n slot hnone hlookup hn hslot hno =>
      refine StepSlots.leaked t x _ hnone hlookup rfl (clearCount_of_firstFree_none hno) ?_ ?_
      · exact Nat.lt_of_lt_of_eq (Nat.succ_pos _) (clearCount_of_firstFree hn)
      · have hdata := (inUse_withVnode s.drv n slot k t (vnodeType x)).2
        change clearCount (fun i => ((withVnode s.drv n slot k t (vnodeType x)).fs.vnodeData i).inUse)
          nyfsMaxVnodeData + 1 = _
        rw [hdata]
        exact clearCount_of_firstFree hslot
  | fresh t x c n slot hnone hlookup hn hslot hc =>
      exact StepSlots.entered c t x _ hnone hlookup (freeSlots_entered hn hslot hc)

/-- A child that has been found stays cached. -/
theorem Grown.cachedChild_eq (h : Grown k L r nodes s kids ino s' kids' ino') (hs : Vfs.Sound s kids)
    (hc : c ∈ kids cur) (hname : (s.dentries c).name = name) :
    cachedChild s'.dentries cur name = some c := by
  obtain ⟨f, hf⟩ := h.grows.old c (hs.tree.used cur c hc).2
  have hcached := h.coherent.cachedChild_of_mem (h.grows.kids_sub hc)
  rw [hf] at hcached
  rw [← hname]
  exact hcached

/-- A new child is where the directory has it, and what is missing behind it is missing one directory
less. -/
theorem Grown.entered_depths (hgrown : Grown k L r nodes s kids ino s' kids' ino')
    (h : Coherent k L r s kids ino nodes) (hcur : Cached kids r cur) (hmem : c ∈ kids' cur)
    (hlabel : (s'.dentries c).name = name) (hempty : kids' c = [])
    (hnone : cachedChild s.dentries cur name = none) {x : Inode}
    (hlookup : (lookupNode (ino cur) name s.drv.fs.cred (s.drv.fs.volumes k)).1 = .ok (t, x))
    {cursor rest : List UInt8} (hfront : InFront cursor name rest) (fuel : Nat) :
    cachedDepth s.dentries (fuel + 1) cur cursor = 0 ∧ cachedDepth s'.dentries fuel c rest = 0 ∧
      missingDepth k s (fuel + 1) cur cursor = missingDepth k s' fuel c rest + 1 := by
  have hino : ino' c = t := by
    obtain ⟨-, type, hfind⟩ := hgrown.coherent.entry cur c hmem
    rw [hgrown.same cur hcur, hlabel] at hfind
    obtain ⟨hans, -⟩ := (h.volume.lookupNode_eq_ok (h.live hcur)).mp hlookup
    obtain ⟨type', hfind'⟩ := hans.find
    rw [hfind] at hfind'
    exact congrArg Prod.fst (Option.some.inj hfind')
  obtain ⟨hdepth, hmissing⟩ := hgrown.coherent.depths_of_no_kids hempty (Or.inr ⟨cur, hmem⟩) fuel rest
  refine ⟨?_, hdepth, ?_⟩
  · rw [hfront.cachedDepth_eq, hnone]
  · obtain ⟨-, m, hm, slot, hvnode, -⟩ := h.shows cur hcur
    rw [hmissing, hino, hgrown.volumes, hgrown.cred, hfront.missingDepth_eq, hnone, hm]
    dsimp only
    rw [hvnode, hfront.foundDepth_eq, hlookup]

/-- The loop of {lit}`resolve_parent_ns` takes a slot of each pool for every directory that it enters
into the cache, and nothing else. -/
theorem Coherent.parentLoop_slots (h : Coherent k L r s kids ino nodes) (hcur : Reached s kids r cur)
    (fuel : Nat) (cursor : List UInt8)
    (hfit : (freeSlots s).FitDirectories (missingDepth k s fuel cur cursor)) :
    Eff.Post (Vfs.parentLoop nyfsDrivers fuel cur cursor) s (fun res s' =>
      ∃ kids' ino', Grown k L r nodes s kids ino s' kids' ino' ∧
        (freeSlots s').plus (cachedDepth s'.dentries fuel cur cursor) =
          (freeSlots s).plus (cachedDepth s.dentries fuel cur cursor) ∧
        ∀ a, res = .ok a → (freeSlots s').plus (missingDepth k s fuel cur cursor) = freeSlots s ∧
          cachedDepth s.dentries fuel cur cursor + missingDepth k s fuel cur cursor =
            cursorDepth fuel cursor) := by
  induction fuel generalizing s kids ino cur cursor with
  | zero => exact ⟨kids, ino, Grown.refl h, rfl, fun _ _ => ⟨rfl, rfl⟩⟩
  | succ fuel ih =>
      rcases parentLoop_cases k fuel cur cursor s with ⟨name, rest, hfront⟩ |
        ⟨hstate, hdepth, hcached, hmissing, -⟩
      swap
      · rw [Eff.Post, hstate, hmissing, hcached, hdepth]
        exact ⟨kids, ino, Grown.refl h, rfl, fun _ _ => ⟨rfl, rfl⟩⟩
      rw [hfront.parentLoop_eq]
      rcases hcur with hcur | ⟨hbare, -⟩
      swap
      · refine Eff.post_bind_error (h.childStep_bare hbare _ name) ⟨kids, ino, Grown.refl h, rfl, ?_⟩
        intro a hcon
        cases hcon
      have hcases := h.childStep_cases hcur .NnotFound name
      cases hrun : Vfs.childStep nyfsDrivers .NnotFound cur name s with
      | mk res s₁ =>
          rw [hrun] at hcases
          obtain ⟨kids₁, ino₁, hgrown, hok⟩ := hcases.grown h hcur
          cases hcases.slots with
          | cached c hchild =>
              have hmem := h.tree.tree.cachedChild_mem hchild
              have hmissing : missingDepth k s₁ (fuel + 1) cur cursor =
                  missingDepth k s₁ fuel c rest := by
                rw [hfront.missingDepth_eq, hchild]
              rw [hmissing] at hfit ⊢
              refine Eff.post_bind_ok hrun (Eff.post_mono (ih h (Or.inl (Or.inr ⟨cur, hmem⟩)) rest hfit)
                ?_)
              rintro res s₂ ⟨kids₂, ino₂, hgrown₂, hslots, hspent⟩
              have hlabel := h.tree.tree.cachedChild_name hchild
              refine ⟨kids₂, ino₂, hgrown₂, ?_, fun a ha => ⟨(hspent a ha).1, ?_⟩⟩
              · rw [hfront.cachedDepth_eq, hfront.cachedDepth_eq, hchild,
                  hgrown₂.cachedChild_eq h.tree hmem hlabel]
                dsimp only
                rw [← Slots.plus_plus, hslots, Slots.plus_plus]
              · rw [hfront.cachedDepth_eq, hchild, hfront.cursorDepth_eq, ← (hspent a ha).2]
                exact Nat.add_right_comm _ _ _
          | entered c t x s' hnone hlookup hspent₁ =>
              obtain ⟨hmem, hlabel, hempty⟩ := hok c rfl
              obtain ⟨hdepth, hdepth₁, hmissing⟩ := hgrown.entered_depths h hcur hmem hlabel
                (hempty hnone) hnone hlookup hfront fuel
              have hfit₁ : (freeSlots s₁).FitDirectories (missingDepth k s₁ fuel c rest) := by
                rw [hmissing, ← hspent₁] at hfit
                dsimp only [Slots.FitDirectories, Slots.plus] at hfit ⊢
                omega
              refine Eff.post_bind_ok hrun (Eff.post_mono
                (ih hgrown.coherent (Or.inl (Or.inr ⟨cur, hmem⟩)) rest hfit₁) ?_)
              rintro res s₂ ⟨kids₂, ino₂, hgrown₂, hslots, hspent⟩
              refine ⟨kids₂, ino₂, hgrown.trans hgrown₂, ?_, fun a ha => ⟨?_, ?_⟩⟩
              · rw [hdepth, hfront.cachedDepth_eq,
                  hgrown₂.cachedChild_eq hgrown.coherent.tree hmem hlabel]
                dsimp only
                rw [← Slots.plus_plus, hslots, hdepth₁, Slots.plus_plus, Nat.add_comm,
                  ← Slots.plus_plus, hspent₁]
              · rw [hmissing, ← Slots.plus_plus, (hspent a ha).1, hspent₁]
              · rw [hdepth, hmissing, hfront.cursorDepth_eq, ← (hspent a ha).2, hdepth₁]
                omega
          | failed e s' hnone hdentries hsame =>
              refine Eff.post_bind_error hrun ⟨kids₁, ino₁, hgrown, ?_, fun a hcon => ?_⟩
              · rw [hsame, hdentries]
              · cases hcon
          | leaked t x s' hnone hlookup hdentries hno hvnodes hlost =>
              exfalso
              have hpos : 0 < missingDepth k s (fuel + 1) cur cursor := by
                obtain ⟨-, m, hm, slot, hvnode, -⟩ := h.shows cur hcur
                rw [hfront.missingDepth_eq, hnone, hm]
                dsimp only
                rw [hvnode, hfront.foundDepth_eq, hlookup]
                exact Nat.succ_pos _
              have hroom := hfit (by rw [hno]; exact hpos)
              omega

/-! ## Whole calls -/

/-- The directories of a local path that are cached. -/
def cachedIn (s : VfsState (NyfsState D)) (ns : Nat) (localPath : List UInt8) : Nat :=
  cachedDepth s.dentries (Vfs.startCursor localPath).length
    (Vfs.startOf (s.namespaces ns) localPath) (Vfs.startCursor localPath)

/-- The directories of a local path that a resolution enters into the cache. -/
def missingIn (k : Nat) (s : VfsState (NyfsState D)) (ns : Nat) (localPath : List UInt8) : Nat :=
  missingDepth k s (Vfs.startCursor localPath).length
    (Vfs.startOf (s.namespaces ns) localPath) (Vfs.startCursor localPath)

/-- The directories of a path that are cached. -/
def cachedParents (s : VfsState (NyfsState D)) (buffer path : List UInt8) : Nat :=
  match Vfs.namespaceOf s buffer path with
  | none => 0
  | some (ns, localPath) => cachedIn s ns localPath

/-- No name has come to the volume, and the slots in use are as before, apart from those of the path's
directories. -/
structure CreatedNothing (k : Nat) (s s' : VfsState (NyfsState D)) (buffer path : List UInt8) :
    Prop where
  names : SameNames (s.drv.fs.volumes k) (s'.drv.fs.volumes k)
  slots : (usedSlots s').plus (cachedParents s buffer path) =
    (usedSlots s).plus (cachedParents s' buffer path)

/-- A number of slots is free in each pool. -/
structure Slots.Hold (a : Slots) (count : Nat) : Prop where
  dentries : count ≤ a.dentries
  vnodes : count ≤ a.vnodes
  vnodeData : count ≤ a.vnodeData

theorem Slots.hold_plus {a : Slots} {x y : Nat} : (a.plus y).Hold (x + y) ↔ a.Hold x := by
  constructor
  · rintro ⟨hdentries, hvnodes, hdata⟩
    exact ⟨Nat.le_of_add_le_add_right hdentries, Nat.le_of_add_le_add_right hvnodes,
      Nat.le_of_add_le_add_right hdata⟩
  · rintro ⟨hdentries, hvnodes, hdata⟩
    exact ⟨Nat.add_le_add_right hdentries y, Nat.add_le_add_right hvnodes y,
      Nat.add_le_add_right hdata y⟩

/-- The name of a path is made on the volume: a volume is mounted, every directory of the path is
found, and the last of them has room for the name. -/
structure TakesName (k : Nat) (L : Layout) (s : VfsState (NyfsState D)) (isDir : Bool) (ns : Nat)
    (localPath : List UInt8) : Prop where
  mounted : (s.dentries (Vfs.startOf (s.namespaces ns) localPath)).node ≠ none
  directories : cachedIn s ns localPath + missingIn k s ns localPath =
    cursorDepth (Vfs.startCursor localPath).length (Vfs.startCursor localPath)
  makes : ∃ i name nodes, diskParent (s.drv.fs.volumes k) localPath = some (i, name) ∧
    Sound L (s.drv.fs.volumes k) nodes ∧
    MakeStarts L (s.drv.fs.volumes k).view (nodes i) ((s.drv.fs.volumes k).view.inode i) name
      s.drv.fs.cred ∧
    MakeFits L (s.drv.fs.volumes k).view (nodes i) ((s.drv.fs.volumes k).view.inode i) name isDir

/-- The pools have room: the dentries do not run out in the directories of the path before the other
pools, and when the name is made, each pool has a slot for it behind the directories. -/
def CreateRoom (k : Nat) (L : Layout) (s : VfsState (NyfsState D)) (isDir : Bool)
    (buffer path : List UInt8) : Prop :=
  ∀ ns localPath, Vfs.namespaceOf s buffer path = some (ns, localPath) →
    (freeSlots s).FitDirectories (missingIn k s ns localPath) ∧
      (TakesName k L s isDir ns localPath → (freeSlots s).Hold (missingIn k s ns localPath) →
        (freeSlots s).Hold (missingIn k s ns localPath + 1))

/-- What a resolution of the directory of a local path takes. -/
theorem Coherent.resolveParent_slots (h : Coherent k L r s kids ino nodes) {ns : Nat}
    (hns : (s.namespaces ns).inUse) {localPath : List UInt8}
    (hfit : (freeSlots s).FitDirectories (missingIn k s ns localPath))
    {res : Except Stop (Nat × Name)}
    (hrun : Vfs.resolveParentNs nyfsDrivers ns localPath s = (res, s')) :
    (freeSlots s').plus (cachedIn s' ns localPath) = (freeSlots s).plus (cachedIn s ns localPath) ∧
      ∀ a, res = .ok a → (freeSlots s').plus (missingIn k s ns localPath) = freeSlots s ∧
        cachedIn s ns localPath + missingIn k s ns localPath =
          cursorDepth (Vfs.startCursor localPath).length (Vfs.startCursor localPath) := by
  have hpost := h.parentLoop_slots (h.startOf_reached hns localPath).1 _ _ hfit
  rw [Vfs.resolveParentNs, Eff.gets_bind_run] at hrun
  rw [Eff.Post] at hpost
  cases hloop : Vfs.parentLoop nyfsDrivers (Vfs.startCursor localPath).length
      (Vfs.startOf (s.namespaces ns) localPath) (Vfs.startCursor localPath) s with
  | mk out s₁ =>
      rw [hloop] at hpost
      obtain ⟨kids₁, ino₁, hgrown, hslots, hspent⟩ := hpost
      have hnamespaces := hgrown.grows.namespaces
      cases out with
      | error e =>
          rw [Eff.bind_error hloop] at hrun
          obtain ⟨rfl, rfl⟩ := Prod.mk.inj hrun
          rw [cachedIn, cachedIn, hnamespaces]
          refine ⟨hslots, fun a hcon => ?_⟩
          cases hcon
      | ok place =>
          rw [Eff.bind_ok hloop] at hrun
          obtain rfl : s₁ = s' := by
            obtain ⟨cur, out⟩ := place
            cases out with
            | inl name => exact (Prod.mk.inj hrun).2
            | inr cursor =>
                dsimp only at hrun
                split at hrun
                next => exact (Prod.mk.inj hrun).2
                next => exact (Prod.mk.inj hrun).2
          rw [cachedIn, cachedIn, hnamespaces]
          exact ⟨hslots, fun _ _ => hspent place rfl⟩

/-- The volume after a creation that it has refused. -/
theorem Sound.sameNames_of_refused (h : Sound L v nodes) (hi : Live L v.view i) {isDir : Bool}
    {mode : Nat} (hcred : cred.Fits) {e : Stop}
    (hmake : makeNode isDir i name mode cred v = (.error e, v')) : SameNames v v' := by
  obtain ⟨nodes', hsound, hout⟩ := h.makeNode_step hi isDir name mode hcred
  rw [hmake] at hsound hout
  cases hout with
  | failed e leaked hsame =>
      intro j other hj
      have hlive := hj.live h.valid h.mounted h.inventory
      refine h.lookup_congr hsound ⟨hsame.inodeBit, hsame.kept⟩ hj ?_
      rw [hsame.find j hlive]

theorem SameNames.of_eq (h : v' = v) : SameNames v v' := by
  intro j other _
  rw [h]

omit [ReliableDevice D] in
theorem cachedParents_eq {buffer path localPath : List UInt8} {ns : Nat}
    (hgrows : Vfs.Grows s kids s' kids')
    (hspace : Vfs.namespaceOf s buffer path = some (ns, localPath)) :
    cachedParents s buffer path = cachedIn s ns localPath ∧
      cachedParents s' buffer path = cachedIn s' ns localPath := by
  have hspace' : Vfs.namespaceOf s' buffer path = some (ns, localPath) := by
    simpa only [Vfs.namespaceOf, Vfs.lookupNamespace, hgrows.namespaces, hgrows.default_eq] using hspace
  rw [cachedParents, hspace, cachedParents, hspace']
  exact ⟨rfl, rfl⟩

/-- The driver has changed neither the pools nor a name. -/
theorem CreatedNothing.withDrv {buffer path : List UInt8} (h : CreatedNothing k s s' buffer path)
    (hnames : SameNames (s.drv.fs.volumes k) (drv.fs.volumes k))
    (hvnodes : SameVnodes s'.drv drv) (hdata : drv.fs.vnodeData = s'.drv.fs.vnodeData) :
    CreatedNothing k s { s' with drv := drv } buffer path := by
  refine ⟨hnames, ?_⟩
  have hfree : freeSlots { s' with drv := drv } = freeSlots s' := freeSlots_congr rfl hvnodes hdata
  have hused := usedSlots_of_freeSlots (a := 0) (b := 0) (congrArg (Slots.plus · 0) hfree)
  have hslots := h.slots
  rw [show usedSlots { s' with drv := drv } = usedSlots s' from hused]
  exact hslots

/-- A resolution alone creates nothing. -/
theorem Coherent.createdNothing {buffer path localPath : List UInt8} {ns : Nat}
    {res : Except Stop (Nat × Name)} (h : Coherent k L r s kids ino nodes)
    (hgrown : Grown k L r nodes s kids ino s' kids' ino')
    (hspace : Vfs.namespaceOf s buffer path = some (ns, localPath))
    (hrun : Vfs.resolveParentNs nyfsDrivers ns localPath s = (res, s'))
    (hfit : (freeSlots s).FitDirectories (missingIn k s ns localPath)) :
    CreatedNothing k s s' buffer path := by
  refine ⟨SameNames.of_eq (congrFun hgrown.volumes k), ?_⟩
  obtain ⟨hcached, hcached'⟩ := cachedParents_eq hgrown.grows hspace
  rw [hcached, hcached']
  exact usedSlots_of_freeSlots
    (h.resolveParent_slots (h.tree.namespaceOf_used hspace) hfit hrun).1

/-- A directory that the cache shows has been reached from the root of the mount. -/
theorem Coherent.startOf_eq {buffer path localPath : List UInt8} {ns p : Nat}
    (h : Coherent k L r s kids ino nodes) (h' : Coherent k L r s' kids' ino' nodes)
    (hin : InDirectory k s buffer path r s' kids' ino' ns localPath p name) :
    Vfs.startOf (s.namespaces ns) localPath = r := by
  have hpost := h.resolveParent_post (h.tree.namespaceOf_used hin.space) localPath
  rw [Eff.Post, hin.run] at hpost
  obtain ⟨kids₁, ino₁, -, hok⟩ := hpost
  obtain ⟨hreached, hstart⟩ := hok (p, name) rfl
  obtain ⟨-, n, hnode, -⟩ := h'.shows p hin.cached
  rcases hreached with hcached | ⟨hbare, -⟩
  · exact (hstart hin.name_ne hcached).1
  · rw [hnode] at hbare
    cases hbare

/-- Where the volume makes the name, each pool has a slot for it. -/
theorem Coherent.made_room {buffer path localPath : List UInt8} {ns p mode : Nat} {isDir : Bool}
    (h : Coherent k L r s kids ino nodes) (hgrown : Grown k L r nodes s kids ino s' kids' ino')
    (hin : InDirectory k s buffer path r s' kids' ino' ns localPath p name)
    (hroom : CreateRoom k L s isDir buffer path)
    (hmake : Nyfs.makeNode isDir (ino' p) name mode s'.drv.fs.cred (s'.drv.fs.volumes k) = (.ok t, v')) :
    (freeSlots s').Hold 1 := by
  obtain ⟨hfit, hholds⟩ := hroom ns localPath hin.space
  obtain ⟨-, hspent⟩ := h.resolveParent_slots (h.tree.namespaceOf_used hin.space) hfit hin.run
  obtain ⟨htaken, hdepth⟩ := hspent _ rfl
  obtain ⟨nodes', hsound, hout⟩ := hgrown.coherent.volume.makeNode_step
    (hgrown.coherent.live hin.cached) isDir name mode hgrown.coherent.cred
  rw [hmake, hgrown.volumes, hgrown.cred] at hout
  have htakes : TakesName k L s isDir ns localPath := by
    refine ⟨?_, hdepth, ?_⟩
    · obtain ⟨-, n, hnode, -⟩ := h.shows r (Or.inl rfl)
      rw [h.startOf_eq hgrown.coherent hin, hnode]
      exact nofun
    · cases hout with
      | made i hstarts hmade hfits =>
          exact ⟨ino' p, name, nodes, hin.disk, h.volume, hstarts, hfits⟩
  rw [← htaken] at hholds
  have hnone : (freeSlots s').Hold 0 := ⟨Nat.zero_le _, Nat.zero_le _, Nat.zero_le _⟩
  have hleft := hholds htakes (by simpa using Slots.hold_plus.mpr hnone)
  rw [Nat.add_comm] at hleft
  exact Slots.hold_plus.mp hleft

omit [ReliableDevice D] in
theorem Slots.Hold.vnode (h : (freeSlots s).Hold 1) : ¬NoVnode s.drv := by
  rintro (hnone | hnone)
  · exact Nat.not_succ_le_zero 0 (h.vnodes.trans_eq (clearCount_of_firstFree_none hnone))
  · exact Nat.not_succ_le_zero 0 (h.vnodeData.trans_eq (clearCount_of_firstFree_none hnone))

omit [ReliableDevice D] in
theorem Slots.Hold.dentry (h : (freeSlots s).Hold 1) : freeDentrySlot s ≠ none := by
  intro hnone
  exact Nat.not_succ_le_zero 0 (h.dentries.trans_eq (clearCount_of_firstFree_none hnone))

/-- A failed creation with room in the pools. -/
theorem Coherent.makeEntry_error (h : Coherent k L r s kids ino nodes) {isDir : Bool}
    {buffer path : List UInt8} {mode : Nat} (hroom : CreateRoom k L s isDir buffer path) {e : Stop}
    (herror : (Vfs.makeEntry nyfsDrivers (makeOp isDir) buffer path mode s).1 = .error e) :
    CreatedNothing k s (Vfs.makeEntry nyfsDrivers (makeOp isDir) buffer path mode s).2 buffer path := by
  obtain ⟨s₁, kids₁, ino₁, hgrown, hcase⟩ := h.makeEntry_cases isDir buffer path mode
  rcases hcase with ⟨res, hrun, -, hearly⟩ | ⟨ns, localPath, p, name, -, hin, hstep⟩
  · rw [hrun]
    rcases hearly with rfl | ⟨ns, localPath, found, hspace, hparent⟩
    · exact ⟨SameNames.of_eq rfl, rfl⟩
    · exact h.createdNothing hgrown hspace hparent (hroom ns localPath hspace).1
  · have hbefore := h.createdNothing hgrown hin.space hin.run (hroom ns localPath hin.space).1
    cases hmade : Vfs.makeEntry nyfsDrivers (makeOp isDir) buffer path mode s with
    | mk res s₂ =>
        rw [hmade] at hstep herror
        dsimp only at hstep herror ⊢
        subst herror
        cases hstep with
        | present c hchild => exact hbefore
        | refused e v' hnone hmake =>
            refine hbefore.withDrv ?_ (fun _ => rfl) rfl
            have hnames := hgrown.coherent.volume.sameNames_of_refused
              (hgrown.coherent.live hin.cached) hgrown.coherent.cred hmake
            rw [withVolume_self, ← hgrown.volumes]
            exact hnames
        | noVnode t v' drv hnone hmake hno =>
            exact absurd hno (h.made_room hgrown hin hroom hmake).vnode
        | noDentry t v' n slot hnone hmake hn hslot hno =>
            exact absurd hno (h.made_room hgrown hin hroom hmake).dentry

/-- In every run of safe calls, a creation that fails has put no name on the volume and taken nothing
from the pools but for the directories of its path, when the pools have room. -/
theorem create_error_changes_nothing {p : MkfsParams} {dev : D} (hsmall : p.Small)
    (h : CacheRun p dev k (fun s c => c.Safe k p.layout s) s) (buffer path : List UInt8) (mode : Nat)
    (e : Stop) :
    (CreateRoom k p.layout s false buffer path →
      (Vfs.vfsCreate nyfsDrivers buffer path mode s).1 = .error e →
      CreatedNothing k s (Vfs.vfsCreate nyfsDrivers buffer path mode s).2 buffer path) ∧
      (CreateRoom k p.layout s true buffer path →
        (Vfs.vfsMkdir nyfsDrivers buffer path mode s).1 = .error e →
        CreatedNothing k s (Vfs.vfsMkdir nyfsDrivers buffer path mode s).2 buffer path) := by
  obtain ⟨r, kids, ino, nodes, hcoherent⟩ := h.coheres hsmall (fun _ _ hok => hok)
  exact ⟨fun hroom herror => hcoherent.makeEntry_error hroom herror,
    fun hroom herror => hcoherent.makeEntry_error hroom herror⟩

theorem create_error_changes_nothing_tiny : ∃ s : VfsState (NyfsState MemoryDisk),
    CacheRun (tinyParams 114) ⟨fun _ => 0⟩ 0 (fun s c => c.Safe 0 (tinyParams 114).layout s) s ∧
      CreateRoom 0 (tinyParams 114).layout s false [] [47, 97] ∧
      (Vfs.vfsCreate nyfsDrivers [] [47, 97] 0o644 s).1 = .error (.status .NalreadyExists) ∧
      CreatedNothing 0 s (Vfs.vfsCreate nyfsDrivers [] [47, 97] 0o644 s).2 [] [47, 97] := by
  have hname : OneComponent [97] := ⟨nameOk_a, by decide⟩
  obtain ⟨s, kids, ino, nodes, c, hrun, hcached⟩ := tiny_cached (Or.inl rfl) hname
    (fun s c => c.Safe 0 (tinyParams 114).layout s) (fun _ _ _ => trivial)
  have hstep := hcached.coherent.makeEntry_in (by decide)
    (hcached.boot.inDirectory hcached.coherent hname) false 0o644
  have hsmall : (tinyParams 114).Small := ⟨by decide, by decide⟩
  have herror : (Vfs.vfsCreate nyfsDrivers [] [47, 97] 0o644 s).1 =
      .error (.status .NalreadyExists) := by
    change (Vfs.makeEntry nyfsDrivers (makeOp false) [] [47, 97] 0o644 s).1 = _
    cases hmade : Vfs.makeEntry nyfsDrivers (makeOp false) [] [47, 97] 0o644 s with
    | mk res s' =>
        rw [hmade] at hstep
        have hchild := hcached.cachedChild_eq
        cases hstep with
        | present c' hpresent => rfl
        | refused e v' hnone => rw [hchild] at hnone; cases hnone
        | noVnode t v' drv hnone => rw [hchild] at hnone; cases hnone
        | noDentry t v' n slot hnone => rw [hchild] at hnone; cases hnone
        | made t v' c' n slot hnone => rw [hchild] at hnone; cases hnone
  have hroom : CreateRoom 0 (tinyParams 114).layout s false [] [47, 97] := by
    intro ns localPath hspace
    rw [hcached.boot.namespaceOf [97]] at hspace
    cases hspace
    refine ⟨fun hlt => absurd hlt (Nat.not_lt_zero _), fun htakes => ?_⟩
    obtain ⟨i, name, nodes', hdisk, hsound, hstarts, -⟩ := htakes.makes
    rw [(hcached.boot.inDirectory hcached.coherent hname).disk, hcached.coherent.top] at hdisk
    cases hdisk
    have hfind : (nodes nyfsRootIno).find [97] = some (2, nyfsDirentTypeFile) := by
      rw [hcached.file.find, Function.update_self]
    have hlookup := hcached.coherent.volume.lookupNode_root
      hcached.coherent.volume.inventory.root.1 hfind
    obtain ⟨hans, -⟩ := (hsound.lookupNode_eq_ok hsound.inventory.root.1).mp hlookup
    obtain ⟨type, hfind'⟩ := hans.find
    rw [hstarts.absent] at hfind'
    cases hfind'
  exact ⟨s, hrun, hroom, herror,
    (create_error_changes_nothing hsmall hrun [] [47, 97] 0o644 _).1 hroom herror⟩

/-- The vnodes are all in use but one. -/
def crowdedDrivers (v : Volume D) : Drivers (NyfsState D) :=
  { freshDrivers v with
    vnodes := Function.update (fun _ => { Vfs.Vnode.zero with inUse := true }) 0 Vfs.Vnode.zero }

/-- The volume takes the last vnode, a creation in its root directory fails, and the new name is on the
volume. -/
theorem create_error_leaves_name : ∃ s : VfsState (NyfsState MemoryDisk),
    CacheRun (tinyParams 114) ⟨fun _ => 0⟩ 0 (fun s c => c.Safe 0 (tinyParams 114).layout s) s ∧
      (Vfs.vfsCreate nyfsDrivers [] [47, 97] 0o644 s).1 = .error (.status .NoutOfMemory) ∧
      (lookupName nyfsRootIno [97] (s.drv.fs.volumes 0)).1 = .error (.status .NnotFound) ∧
      (∃ found, (lookupName nyfsRootIno [97]
        ((Vfs.vfsCreate nyfsDrivers [] [47, 97] 0o644 s).2.drv.fs.volumes 0)).1 = .ok found) := by
  have hname : OneComponent [97] := ⟨nameOk_a, by decide⟩
  obtain ⟨v, nodes, hreach, hsound, hfresh⟩ := tiny_opens anyRequest (Or.inl rfl)
    (⟨fun _ => 0⟩ : MemoryDisk)
  obtain ⟨hstarts, -, hacl, -, hfit⟩ := hfresh.takes_name hsound.valid (by decide) hname.nameOk
  have hmount : mountRoot nyfsDrivers 0 [] [47] (Vfs.vfsInit (Vfs.boot (crowdedDrivers v))).2 =
      (.ok (), atRoot (withVnode (crowdedDrivers v) 0 0 0 nyfsRootIno 2) 0) := mountRoot_boot rfl rfl
  have hcoherent : Coherent 0 (tinyParams 114).layout 0
      (atRoot (withVnode (crowdedDrivers v) 0 0 0 nyfsRootIno 2) 0) (fun _ => [])
      (fun _ => nyfsRootIno) nodes := coherent_atRoot hsound superuser_fits
  have hstep := hcoherent.makeEntry_in (by decide) (AtBoot.inDirectory ⟨rfl, rfl⟩ hcoherent hname) false
    0o644
  have hlive := hsound.inventory.root.1
  have hbefore := hsound.lookup_find hlive hstarts.type hname.nameOk
  rw [hstarts.absent] at hbefore
  refine ⟨_, CacheRun.start hreach superuser_fits rfl rfl hmount, ?_⟩
  change (Vfs.makeEntry nyfsDrivers (makeOp false) [] [47, 97] 0o644 _).1 = _ ∧ _ ∧ ∃ found,
    (lookupName nyfsRootIno [97] ((Vfs.makeEntry nyfsDrivers (makeOp false) [] [47, 97] 0o644
      _).2.drv.fs.volumes 0)).1 = .ok found
  obtain ⟨nodes', hsound', hout⟩ := hsound.makeNode_step hlive false [97] 0o644 superuser_fits
  cases hmade : Vfs.makeEntry nyfsDrivers (makeOp false) [] [47, 97] 0o644
      (atRoot (withVnode (crowdedDrivers v) 0 0 0 nyfsRootIno 2) 0) with
  | mk res s' =>
      rw [hmade] at hstep
      dsimp only at hstep ⊢
      cases hstep with
      | present c hpresent => cases hpresent
      | refused e v' hnone hmake =>
          change makeNode false nyfsRootIno [97] 0o644 ⟨0, 0⟩ v = _ at hmake
          rw [hmake] at hout
          cases hout with
          | failed e leaked _ _ _ _ _ hno =>
              exact absurd ⟨hstarts, [], [], hacl false, rfl, Or.inl hfit⟩ hno
      | noVnode t v' drv hnone hmake hno hfs =>
          change makeNode false nyfsRootIno [97] 0o644 ⟨0, 0⟩ v = _ at hmake
          rw [hmake] at hout hsound'
          refine ⟨rfl, hbefore, (t, direntType (v'.view.inode t)), ?_⟩
          rw [hfs, withVolume_self]
          cases hout with
          | made i _ hmade _ hplace =>
              have hkept := hmade.kept nyfsRootIno hlive
              rw [hsound'.lookup_find hkept.live ?_ hname.nameOk, hmade.parent, Function.update_self]
              · rfl
              · rw [Inode.type_of_core hkept.core]
                exact hstarts.type
      | noDentry t v' n slot hnone hmake hn =>
          change none = some n at hn
          cases hn
      | made t v' c n slot hnone hmake hn =>
          change none = some n at hn
          cases hn

end Nyfs
end Nyxis
