import Nyxis.Nyfs.Pools

/-!
# Open files over runs of calls

Files are opened, reopened and closed, and any other calls of the virtual file system come between.
Every handle keeps the slot that its open has taken.  A close goes through the vnode of the handle: it
gives back that slot when the vnode has operations, and fails when an unlink, a rename or an unmount
has freed it.

Main results:

- Theorem {lit}`SessionRun.holds`: the handles and their slots.
- Theorem {lit}`close_gives_back_iff`: when a handle can be closed.
-/

namespace Nyxis
namespace Nyfs

open Eff (Moves)
open Vfs (VfsState VfsM Drivers Handle Name Framed OnDrivers)

variable {D : Type} [ReliableDevice D]

/-! ## Calls between opens and closes -/

/-- A call that opens and closes no file. -/
inductive OtherCall
  | create (buffer path : List UInt8) (mode : Nat)
  | mkdir (buffer path : List UInt8) (mode : Nat)
  | unlink (buffer path : List UInt8)
  | rename (oldBuffer newBuffer oldPath newPath : List UInt8)
  | readdir (buffer path : List UInt8) (index nameMax : Nat)
  | read (handle : Handle) (size : Nat)
  | write (handle : Handle) (bytes : List UInt8)
  | fstat (handle : Handle)
  | registerNamespace (buffer : List UInt8) (name : Name) (source : List UInt8)
  | mount (vol : Nat) (buffer path : List UInt8)
  | unmount (buffer mountPath : List UInt8) (root : Option Nat)
  | become (cred : Cred)

/-- The state that a call leaves. -/
def OtherCall.exec (s : VfsState (NyfsState D)) : OtherCall → VfsState (NyfsState D)
  | create buffer path mode => (Vfs.vfsCreate nyfsDrivers buffer path mode s).2
  | mkdir buffer path mode => (Vfs.vfsMkdir nyfsDrivers buffer path mode s).2
  | unlink buffer path => (Vfs.vfsUnlink nyfsDrivers buffer path s).2
  | rename oldBuffer newBuffer oldPath newPath =>
      (Vfs.vfsRename nyfsDrivers oldBuffer newBuffer oldPath newPath s).2
  | readdir buffer path index nameMax => (Vfs.vfsReaddir nyfsDrivers buffer path index nameMax s).2
  | read handle size => (Vfs.vfsRead nyfsDrivers handle size s).2
  | write handle bytes => (Vfs.vfsWrite nyfsDrivers handle bytes s).2
  | fstat handle => (Vfs.vfsFstat nyfsDrivers handle s).2
  | registerNamespace buffer name source => (Vfs.vfsRegisterNamespace nyfsDrivers buffer name source s).2
  | mount vol buffer path => (mountRoot nyfsDrivers vol buffer path s).2
  | unmount buffer mountPath root => (unmountRoot nyfsDrivers buffer mountPath root s).2
  | become cred => { s with drv := { s.drv with fs := { s.drv.fs with cred := cred } } }

/-- The open files are as before. -/
def SameHandles (s s' : VfsState (NyfsState D)) : Prop :=
  s'.drv.fs.handleSlots = s.drv.fs.handleSlots

section Same

omit [ReliableDevice D]

theorem SameHandles.refl (s : VfsState (NyfsState D)) : SameHandles s s :=
  rfl

theorem SameHandles.trans (a b c : VfsState (NyfsState D)) (h : SameHandles a b)
    (h' : SameHandles b c) : SameHandles a c :=
  Eq.trans h' h

theorem sameHandles_of_pools {α : Type} {m : VfsM (NyfsState D) α}
    (h : Moves (OnDrivers KeepsPools) m) : Moves SameHandles m :=
  fun s => (h s).handleSlots

theorem sameHandles_freeVnodeData (data : Option Nat) :
    Moves SameHandles (Vfs.callDriver (nyfsFreeVnodeData data) : VfsM (NyfsState D) Unit) := by
  intro s
  cases data with
  | none => rfl
  | some i =>
      rw [nyfsFreeVnodeData]
      split
      next => rfl
      next => rfl

end Same

theorem mountRoot_sameHandles (vol : Nat) (buffer path : List UInt8) :
    Moves SameHandles (mountRoot (nyfsDrivers (D := D)) vol buffer path) := by
  have hF := nyfs_framed (D := D)
  refine (sameHandles_of_pools (Framed.callDriver (makeVnode_keepsPools _ _ _))).bind SameHandles.trans
    (fun root => ?_)
  cases root with
  | none => exact fun _ => rfl
  | some root =>
      refine Eff.Moves.bind ?_ SameHandles.trans (fun res => ?_)
      · intro s
        rw [Eff.attempt_run]
        exact (hF.vfsMount buffer path root s).handleSlots
      · cases res with
        | ok u => exact fun _ => rfl
        | error e =>
            refine Eff.Moves.bind (fun _ => rfl) SameHandles.trans (fun data => ?_)
            refine (sameHandles_freeVnodeData data).bind SameHandles.trans (fun _ => ?_)
            exact (sameHandles_of_pools (Framed.callDriver (hF.freeVnode _))).bind SameHandles.trans
              (fun _ _ => rfl)

theorem unmountRoot_sameHandles (buffer mountPath : List UInt8) (root : Option Nat) :
    Moves SameHandles (unmountRoot (nyfsDrivers (D := D)) buffer mountPath root) := by
  have hF := nyfs_framed (D := D)
  have hunmount : Moves SameHandles
      (Eff.ignore (Vfs.vfsUnmount (nyfsDrivers (D := D)) buffer mountPath)) := by
    intro s
    rw [Eff.ignore_run]
    exact (hF.vfsUnmount buffer mountPath s).handleSlots
  have hroot : ∀ n, Moves SameHandles (do
      let data ← Eff.gets (fun v => (v.drv.vnodes n).fsPrivate)
      Vfs.callDriver (nyfsFreeVnodeData data)
      Vfs.callDriver (Vfs.vfsFreeVnode (some n)) : VfsM (NyfsState D) Unit) := by
    intro n
    refine Eff.Moves.bind (fun _ => rfl) SameHandles.trans (fun data => ?_)
    exact (sameHandles_freeVnodeData data).bind SameHandles.trans
      (fun _ => sameHandles_of_pools (Framed.callDriver (hF.freeVnode _)))
  unfold unmountRoot
  cases root with
  | none =>
      exact Eff.moves_ite (fun _ => rfl) (hunmount.bind SameHandles.trans (fun _ _ => rfl))
  | some n =>
      exact Eff.moves_ite (hroot n) (hunmount.bind SameHandles.trans (fun _ => hroot n))

/-- Other calls leave the open files. -/
theorem OtherCall.sameHandles (c : OtherCall) (s : VfsState (NyfsState D)) :
    SameHandles s (c.exec s) := by
  have hF := nyfs_framed (D := D)
  cases c with
  | create buffer path mode => exact (hF.makeEntry hF.create buffer path mode s).handleSlots
  | mkdir buffer path mode => exact (hF.makeEntry hF.mkdir buffer path mode s).handleSlots
  | unlink buffer path => exact (hF.vfsUnlink buffer path s).handleSlots
  | rename oldBuffer newBuffer oldPath newPath =>
      exact (hF.vfsRename oldBuffer newBuffer oldPath newPath s).handleSlots
  | readdir buffer path index nameMax => exact (hF.vfsReaddir buffer path index nameMax s).handleSlots
  | read handle size => exact (hF.vfsRead handle size s).handleSlots
  | write handle bytes => exact (hF.vfsWrite handle bytes s).handleSlots
  | fstat handle => exact (hF.vfsFstat handle s).handleSlots
  | registerNamespace buffer name source =>
      exact (hF.vfsRegisterNamespace buffer name source s).handleSlots
  | mount vol buffer path => exact mountRoot_sameHandles vol buffer path s
  | unmount buffer mountPath root => exact unmountRoot_sameHandles buffer mountPath root s
  | become cred => rfl

/-! ## Opens and closes -/

/-- What an open does to the open files: nothing, when it fails; else it takes a free slot. -/
structure OpensIn (s s' : VfsState (NyfsState D)) (g : Handle) (slot : Nat) : Prop where
  lt : slot < nyfsMaxHandles
  free : (s.drv.fs.handleSlots slot).inUse = false
  slots : ∃ entry, s'.drv.fs.handleSlots =
    Function.update s.drv.fs.handleSlots slot ⟨true, entry⟩
  handle : g.fsPrivate = some slot

/-- The outcome of an open. -/
def OpenOutcome (s : VfsState (NyfsState D)) (res : Except Stop Handle) (s' : VfsState (NyfsState D)) :
    Prop :=
  match res with
  | .error _ => SameHandles s s'
  | .ok g => ∃ slot, OpensIn s s' g slot

omit [ReliableDevice D] in
theorem OpenOutcome.after {s s₁ s₂ : VfsState (NyfsState D)} {res : Except Stop Handle}
    (h : SameHandles s s₁) (h' : OpenOutcome s₁ res s₂) : OpenOutcome s res s₂ := by
  cases res with
  | error e => exact SameHandles.trans _ _ _ h h'
  | ok g =>
      obtain ⟨slot, hlt, hfree, hslots, hhandle⟩ := h'
      rw [SameHandles] at h
      rw [h] at hfree hslots
      exact ⟨slot, hlt, hfree, hslots, hhandle⟩

/-- {lit}`nyfs_open`, on any vnode. -/
theorem callDriver_nyfsOpen (vnode flags : Nat) (handle : Handle) (s : VfsState (NyfsState D)) :
    Eff.Post (Vfs.callDriver (nyfsOpen vnode flags handle)) s (OpenOutcome s) := by
  have hentry := (reads_vnodeEntry vnode).run_eq s.drv
  cases hplace : (vnodeEntry vnode s.drv).1 with
  | error e =>
      rw [hplace] at hentry
      have hrun : Vfs.callDriver (nyfsOpen vnode flags handle) s = (.error e, s) := by
        rw [Vfs.callDriver, nyfsOpen, Eff.bind_error hentry]
      exact Eff.post_of_eq hrun rfl
  | ok place =>
      rw [hplace] at hentry
      have hopen := onVolume_eq place.1 (openNode place.2 flags s.drv.fs.cred) s.drv
      cases hnode : (openNode place.2 flags s.drv.fs.cred (s.drv.fs.volumes place.1)).1 with
      | error e =>
          rw [hnode] at hopen
          have hrun : (Vfs.callDriver (nyfsOpen vnode flags handle) s).1 = .error e ∧
              SameHandles s (Vfs.callDriver (nyfsOpen vnode flags handle) s).2 := by
            rw [Vfs.callDriver, nyfsOpen, Eff.bind_ok hentry]
            dsimp only
            rw [Eff.gets_bind_run, Eff.bind_error hopen]
            exact ⟨rfl, rfl⟩
          rw [Eff.Post, hrun.1]
          exact hrun.2
      | ok u =>
          rw [hnode] at hopen
          generalize hdrv : withVolume s.drv place.1
            (openNode place.2 flags s.drv.fs.cred (s.drv.fs.volumes place.1)).2 = drv at hopen
          have hslots : drv.fs.handleSlots = s.drv.fs.handleSlots := by
            rw [← hdrv]
            rfl
          have halloc := nyfsAllocHandleData_eq drv ⟨some place.1, place.2⟩
          rw [Eff.Post, Vfs.callDriver, nyfsOpen, Eff.bind_ok hentry]
          dsimp only
          rw [Eff.gets_bind_run, Eff.bind_ok hopen]
          cases hfree : Vfs.firstFree (fun j => (drv.fs.handleSlots j).inUse) nyfsMaxHandles with
          | none =>
              rw [hfree] at halloc
              rw [Eff.bind_ok halloc]
              exact hslots
          | some slot =>
              rw [hfree] at halloc
              rw [Eff.bind_ok halloc]
              obtain ⟨hlt, hunused⟩ := Vfs.firstFree_spec hfree
              rw [hslots] at hunused
              refine ⟨slot, hlt, hunused, ⟨⟨some place.1, place.2⟩, ?_⟩, rfl⟩
              rw [← hslots]
              rfl

/-- {lit}`vfs_open`. -/
theorem vfsOpen_outcome (buffer path : List UInt8) (flags : Nat) (s : VfsState (NyfsState D)) :
    Eff.Post (Vfs.vfsOpen nyfsDrivers buffer path flags) s (OpenOutcome s) := by
  have hresolve := (nyfs_framed.resolvePathInternal buffer path s).handleSlots
  unfold Vfs.vfsOpen
  cases hrun : Vfs.resolvePathInternal nyfsDrivers buffer path s with
  | mk res s₁ =>
      rw [hrun] at hresolve
      cases res with
      | error e => exact Eff.post_bind_error hrun hresolve
      | ok target =>
          refine Eff.post_bind_ok hrun (Eff.post_gets_bind ?_)
          rcases opsOf_nyfsDrivers s₁ (s₁.dentries target).node with hops | ⟨n, hops⟩
          · rw [hops]
            exact hresolve
          · rw [hops]
            exact Eff.post_mono (callDriver_nyfsOpen n flags ⟨some n, 0, flags, none⟩ s₁)
              (fun _ _ hout => hout.after hresolve)

/-- {lit}`vfs_reopen`. -/
theorem vfsReopen_outcome (g : Handle) (s : VfsState (NyfsState D)) :
    Eff.Post (Vfs.vfsReopen nyfsDrivers g) s (OpenOutcome s) := by
  unfold Vfs.vfsReopen
  refine Eff.post_gets_bind ?_
  rcases opsOf_nyfsDrivers s g.vnode with hops | ⟨n, hops⟩
  · rw [hops]
    exact rfl
  · rw [hops]
    exact callDriver_nyfsOpen n g.flags { g with fsPrivate := none } s

/-- {lit}`vfs_close`: a handle whose vnode has operations gives back its slot, another one is refused. -/
theorem vfsClose_cases (g : Handle) (s : VfsState (NyfsState D)) :
    (Vfs.opsOf nyfsDrivers s g.vnode = none ∧
        Vfs.vfsClose nyfsDrivers g s = (.error (.status .Nunsupported), s)) ∨
      (Vfs.opsOf nyfsDrivers s g.vnode ≠ none ∧ ∀ slot, g.fsPrivate = some slot →
        slot < nyfsMaxHandles → Vfs.vfsClose nyfsDrivers g s = (.ok Handle.cleared, { s with
          drv := { s.drv with
            fs := { s.drv.fs with
              handleSlots := Function.update s.drv.fs.handleSlots slot ⟨false, VnodeData.zero⟩ } } })) := by
  rcases opsOf_nyfsDrivers s g.vnode with hops | ⟨n, hops⟩
  · refine Or.inl ⟨hops, ?_⟩
    rw [Vfs.vfsClose, Eff.gets_bind_run, hops]
    rfl
  · refine Or.inr ⟨by rw [hops]; exact Option.some_ne_none _, fun slot hslot hlt => ?_⟩
    rw [Vfs.vfsClose, Eff.gets_bind_run, hops]
    have hcall : Vfs.callDriver (nyfsClose g) s = (.ok { g with fsPrivate := none }, { s with
        drv := { s.drv with
          fs := { s.drv.fs with
            handleSlots := Function.update s.drv.fs.handleSlots slot ⟨false, VnodeData.zero⟩ } } }) := by
      rw [Vfs.callDriver, nyfsClose, hslot, nyfsFreeHandleData, if_pos hlt]
      rfl
    dsimp only [nyfsOps]
    rw [Eff.bind_ok hcall]
    rfl

/-! ## Runs -/

/-- The state of the virtual file system, and the handles of the open files with the slots that their
opens have taken. -/
structure Session (D : Type) where
  vfs : VfsState (NyfsState D)
  held : List (Handle × Option Nat)

/-- The slot that is in use after a call and was free before it. -/
def takenSlot (s s' : VfsState (NyfsState D)) : Option Nat :=
  (List.range nyfsMaxHandles).find? (fun i =>
    !(s.drv.fs.handleSlots i).inUse && (s'.drv.fs.handleSlots i).inUse)

/-- A call of a session.  The open files are named by their places among the handles, and a caller may
move the offset of a handle. -/
inductive SessionCall
  | openFile (buffer path : List UInt8) (flags : Nat)
  | reopen (place : Nat)
  | close (place : Nat)
  | seek (place offset : Nat)
  | other (c : OtherCall)

/-- The session behind an open: the handle, if there is one, is held. -/
def Session.behindOpen (s : Session D) : Except Stop Handle × VfsState (NyfsState D) → Session D
  | (.ok g, v) => ⟨v, (g, takenSlot s.vfs v) :: s.held⟩
  | (.error _, v) => ⟨v, s.held⟩

/-- The session behind a close: a handle that has been closed is no longer held. -/
def Session.behindClose (s : Session D) (place : Nat) :
    Except Stop Handle × VfsState (NyfsState D) → Session D
  | (.ok _, v) => ⟨v, s.held.eraseIdx place⟩
  | (.error _, v) => ⟨v, s.held⟩

/-- One call of a session. -/
def Session.step (s : Session D) : SessionCall → Session D
  | .openFile buffer path flags => s.behindOpen (Vfs.vfsOpen nyfsDrivers buffer path flags s.vfs)
  | .reopen place =>
      match s.held[place]? with
      | none => s
      | some (g, _) => s.behindOpen (Vfs.vfsReopen nyfsDrivers g s.vfs)
  | .close place =>
      match s.held[place]? with
      | none => s
      | some (g, _) => s.behindClose place (Vfs.vfsClose nyfsDrivers g s.vfs)
  | .seek place offset =>
      { s with held := s.held.modify place (fun h => ({ h.1 with offset := offset }, h.2)) }
  | .other c => { s with vfs := c.exec s.vfs }

/-- The sessions that calls lead to, from a system that has just been started. -/
inductive SessionRun : Session D → Prop
  | start (drv : Drivers (NyfsState D)) : SessionRun ⟨(Vfs.vfsInit (Vfs.boot drv)).2, []⟩
  | step {s : Session D} (c : SessionCall) (h : SessionRun s) : SessionRun (s.step c)

/-- A handle carries the slot that its open has taken, and the slot is in use. -/
structure Carries (v : VfsState (NyfsState D)) (h : Handle × Option Nat) : Prop where
  slot : h.1.fsPrivate = h.2
  used : ∃ i, h.2 = some i ∧ i < nyfsMaxHandles ∧ (v.drv.fs.handleSlots i).inUse = true

/-- Every handle carries its own slot. -/
structure Session.Holds (s : Session D) : Prop where
  carries : ∀ h ∈ s.held, Carries s.vfs h
  distinct : (s.held.map Prod.snd).Nodup

section Holds

variable {s : Session D} {v : VfsState (NyfsState D)}

omit [ReliableDevice D]

theorem Carries.congr {h : Handle × Option Nat} (hcarries : Carries s.vfs h)
    (hsame : SameHandles s.vfs v) : Carries v h := by
  obtain ⟨hslot, i, hi, hlt, hused⟩ := hcarries
  refine ⟨hslot, i, hi, hlt, ?_⟩
  rw [hsame]
  exact hused

theorem Session.Holds.same (h : s.Holds) (hsame : SameHandles s.vfs v) :
    Session.Holds ⟨v, s.held⟩ :=
  ⟨fun g hg => (h.carries g hg).congr hsame, h.distinct⟩

theorem OpensIn.takenSlot {v' : VfsState (NyfsState D)} {g : Handle} {slot : Nat}
    (h : OpensIn v v' g slot) : takenSlot v v' = some slot := by
  obtain ⟨entry, hslots⟩ := h.slots
  have honly : ∀ i, (!(v.drv.fs.handleSlots i).inUse && (v'.drv.fs.handleSlots i).inUse) = true →
      i = slot := by
    intro i hi
    by_contra hne
    rw [hslots, Function.update_of_ne hne] at hi
    simp at hi
  have hself : (!(v.drv.fs.handleSlots slot).inUse && (v'.drv.fs.handleSlots slot).inUse) = true := by
    rw [h.free, hslots, Function.update_self]
    rfl
  cases hfind : Nyfs.takenSlot v v' with
  | none =>
      exact absurd hself (List.find?_eq_none.mp hfind slot (List.mem_range.mpr h.lt))
  | some i =>
      have hi := List.find?_some hfind
      rw [honly i hi]

theorem Session.Holds.behindOpen (h : s.Holds) {res : Except Stop Handle}
    (hout : OpenOutcome s.vfs res v) : (s.behindOpen (res, v)).Holds := by
  cases res with
  | error e => exact h.same hout
  | ok g =>
      obtain ⟨slot, hopens⟩ := hout
      obtain ⟨entry, hslots⟩ := hopens.slots
      have hnew : ∀ i, (s.vfs.drv.fs.handleSlots i).inUse = true → i ≠ slot := by
        rintro i hi rfl
        rw [hopens.free] at hi
        cases hi
      have hold : ∀ k ∈ s.held, Carries v k := by
        intro k hk
        obtain ⟨hslot, i, hi, hlt, hused⟩ := h.carries k hk
        refine ⟨hslot, i, hi, hlt, ?_⟩
        rw [hslots, Function.update_of_ne (hnew i hused)]
        exact hused
      constructor
      · intro k hk
        rcases List.mem_cons.mp hk with rfl | hk
        · refine ⟨?_, slot, hopens.takenSlot, hopens.lt, ?_⟩
          · rw [hopens.takenSlot]
            exact hopens.handle
          · change (v.drv.fs.handleSlots slot).inUse = true
            rw [hslots, Function.update_self]
        · exact hold k hk
      · refine List.nodup_cons.mpr ⟨fun hmem => ?_, h.distinct⟩
        obtain ⟨k, hk, heq⟩ := List.mem_map.mp hmem
        obtain ⟨-, i, hi, -, hused⟩ := h.carries k hk
        rw [hi, hopens.takenSlot] at heq
        exact hnew i hused (Option.some.inj heq)

/-- Two handles at different places carry different slots. -/
theorem Session.Holds.slots_ne (h : s.Holds) {i j : Nat} {g k : Handle × Option Nat}
    (hi : s.held[i]? = some g) (hj : s.held[j]? = some k) (hne : i ≠ j) : g.2 ≠ k.2 := by
  intro heq
  have hlt : i < (s.held.map Prod.snd).length := by
    rw [List.length_map]
    exact (List.getElem?_eq_some_iff.mp hi).1
  refine hne ((List.getElem?_inj hlt h.distinct).mp ?_)
  rw [List.getElem?_map, List.getElem?_map, hi, hj, Option.map_some, Option.map_some, heq]

/-- A handle is closed, and the others keep their slots. -/
theorem Session.Holds.erase (h : s.Holds) {place slot : Nat} {g : Handle × Option Nat}
    (hg : s.held[place]? = some g) (hslot : g.2 = some slot) (entry : VnodeData)
    (hslots : v.drv.fs.handleSlots = Function.update s.vfs.drv.fs.handleSlots slot ⟨false, entry⟩) :
    Session.Holds ⟨v, s.held.eraseIdx place⟩ := by
  constructor
  · intro k hk
    obtain ⟨i, hne, hi⟩ := List.mem_eraseIdx_iff_getElem?.mp hk
    obtain ⟨hcarry, j, hj, hlt, hused⟩ := h.carries k (List.mem_of_getElem? hi)
    refine ⟨hcarry, j, hj, hlt, ?_⟩
    have hother : j ≠ slot := by
      rintro rfl
      exact h.slots_ne hi hg hne (hj.trans hslot.symm)
    change (v.drv.fs.handleSlots j).inUse = true
    rw [hslots, Function.update_of_ne hother]
    exact hused
  · have hsub := (List.eraseIdx_sublist s.held place).map Prod.snd
    exact hsub.nodup h.distinct

theorem Session.Holds.seek (h : s.Holds) (place offset : Nat) :
    Session.Holds
      { s with held := s.held.modify place (fun g => ({ g.1 with offset := offset }, g.2)) } := by
  constructor
  · intro k hk
    obtain ⟨i, hi⟩ := List.mem_iff_getElem?.mp hk
    change (s.held.modify place _)[i]? = some k at hi
    rw [List.getElem?_modify] at hi
    obtain ⟨g, hg, hgk⟩ := Option.map_eq_some_iff.mp hi
    have hcarries := h.carries g (List.mem_of_getElem? hg)
    split at hgk
    next =>
      rw [← hgk]
      exact ⟨hcarries.slot, hcarries.used⟩
    next =>
      rw [← hgk]
      exact hcarries
  · have hsame : (s.held.modify place (fun g => ({ g.1 with offset := offset }, g.2))).map Prod.snd =
        s.held.map Prod.snd := by
      apply List.ext_getElem?
      intro i
      rw [List.getElem?_map, List.getElem?_map, List.getElem?_modify]
      cases s.held[i]? with
      | none => rfl
      | some g =>
          dsimp only [Option.map_eq_map, Option.map_some]
          split
          next => rfl
          next => rfl
    change (List.map Prod.snd _).Nodup
    rw [hsame]
    exact h.distinct

end Holds

/-- One call keeps the invariant. -/
theorem Session.Holds.step {s : Session D} (h : s.Holds) (c : SessionCall) : (s.step c).Holds := by
  cases c with
  | openFile buffer path flags => exact h.behindOpen (vfsOpen_outcome buffer path flags s.vfs)
  | reopen place =>
      rw [Session.step]
      cases hg : s.held[place]? with
      | none => exact h
      | some g => exact h.behindOpen (vfsReopen_outcome g.1 s.vfs)
  | close place =>
      rw [Session.step]
      cases hg : s.held[place]? with
      | none => exact h
      | some g =>
          obtain ⟨hslot, i, hi, hlt, -⟩ := h.carries g (List.mem_of_getElem? hg)
          dsimp only
          rcases vfsClose_cases g.1 s.vfs with ⟨-, hclose⟩ | ⟨-, hclose⟩
          · rw [hclose]
            exact h
          · rw [hclose i (hslot.trans hi) hlt]
            exact h.erase hg hi VnodeData.zero rfl
  | seek place offset => exact h.seek place offset
  | other c => exact h.same (c.sameHandles s.vfs)

/-- Every handle of a run carries its own slot. -/
theorem SessionRun.holds {s : Session D} (h : SessionRun s) : s.Holds := by
  induction h with
  | start drv => exact ⟨fun _ hg => (List.not_mem_nil hg).elim, List.nodup_nil⟩
  | step c _ ih => exact ih.step c

/-! ## Closing -/

/-- A close succeeds and gives back exactly one slot, which was in use. -/
structure GivesBack (v : VfsState (NyfsState D)) (g : Handle) (slot : Nat) : Prop where
  closes : (Vfs.vfsClose nyfsDrivers g v).1 = .ok Handle.cleared
  used : (v.drv.fs.handleSlots slot).inUse = true
  slots : ∀ j, ((Vfs.vfsClose nyfsDrivers g v).2.drv.fs.handleSlots j).inUse =
    ((v.drv.fs.handleSlots j).inUse && decide (j ≠ slot))

/-- In every run, a file that is open can be closed, and the slot that its open has taken is given back,
exactly when the vnode of the handle has operations. -/
theorem close_gives_back_iff {s : Session D} (h : SessionRun s) {g : Handle} {slot : Option Nat}
    (hg : (g, slot) ∈ s.held) :
    (∃ i, slot = some i ∧ GivesBack s.vfs g i) ↔ Vfs.opsOf nyfsDrivers s.vfs g.vnode ≠ none := by
  obtain ⟨hcarry, i, hi, hlt, hused⟩ := h.holds.carries (g, slot) hg
  dsimp only at hcarry hi
  rcases vfsClose_cases g s.vfs with ⟨hops, hclose⟩ | ⟨hops, hclose⟩
  · refine iff_of_false ?_ (not_not.mpr hops)
    rintro ⟨j, -, hback⟩
    have hcloses := hback.closes
    rw [hclose] at hcloses
    cases hcloses
  · have hrun := hclose i (hcarry.trans hi) hlt
    refine iff_of_true ⟨i, hi, ?_, hused, fun j => ?_⟩ hops
    · rw [hrun]
    · rw [hrun]
      by_cases hj : j = i
      · rw [hj]
        simp
      · rw [decide_eq_true hj, Bool.and_true]
        change (Function.update s.vfs.drv.fs.handleSlots i ⟨false, VnodeData.zero⟩ j).inUse = _
        rw [Function.update_of_ne hj]

/-- A session that has created a file and opened it. -/
theorem tiny_session : ∃ (s : VfsState (NyfsState MemoryDisk)) (kids : _) (ino : _) (nodes : _)
    (c n : Nat), FileCached (tinyParams 114).layout s kids ino nodes [97] c ∧
      (s.dentries c).node = some n ∧ Vfs.opsOf nyfsDrivers s (some n) ≠ none ∧
      SessionRun ⟨s, [(⟨some n, 0, 1, some 0⟩, some 0)]⟩ := by
  have hname : OneComponent [97] := ⟨nameOk_a, by decide⟩
  obtain ⟨v, s, kids, ino, nodes, c, -, hcreate, hcached⟩ := tiny_created
  obtain ⟨-, n, hnode, hstands⟩ := hcached.coherent.shows c (Or.inr ⟨0, hcached.mem⟩)
  have hmount := SessionRun.step (.other (.mount 0 [] [47])) (SessionRun.start (freshDrivers v))
  have hfresh : Session.step ⟨(Vfs.vfsInit (Vfs.boot (freshDrivers v))).2, []⟩
      (.other (.mount 0 [] [47])) = ⟨freshMount v, []⟩ := by
    rw [Session.step, OtherCall.exec, mountRoot_boot (n := 0) rfl
      (show freeDataSlot (freshDrivers v) = some 0 from rfl)]
    rfl
  rw [hfresh] at hmount
  have hcreated := hmount.step (.other (.create [] [47, 97] 0o644))
  have hslots := OtherCall.sameHandles (.create [] [47, 97] 0o644) (freshMount v)
  rw [Session.step, OtherCall.exec, hcreate] at hcreated
  rw [SameHandles, OtherCall.exec, hcreate] at hslots
  have hfree : Vfs.firstFree (fun j => (s.drv.fs.handleSlots j).inUse) nyfsMaxHandles = some 0 := by
    dsimp only at hslots
    rw [hslots]
    rfl
  have hopen := hcached.vfsOpen hname hnode hfree 1
  have hopened := hcreated.step (.openFile [] [47, 97] 1)
  have htaken := vfsOpen_outcome [] [47, 97] 1 s
  rw [Eff.Post, hopen] at htaken
  obtain ⟨slot, hopens⟩ := htaken
  obtain rfl : 0 = slot := Option.some.inj hopens.handle
  rw [Session.step, hopen, Session.behindOpen, hopens.takenSlot] at hopened
  refine ⟨_, kids, ino, nodes, c, n, ?_, ?_, ?_, hopened⟩
  · exact ⟨hcached.coherent.withHandleSlots _, ⟨hcached.boot.1, hcached.boot.2⟩, hcached.top,
      hcached.cred, hcached.file, hcached.mem, hcached.label⟩
  · exact hnode
  · obtain ⟨slot, hvnode, -⟩ := hstands
    change (s.drv.vnodes n).ops.map _ ≠ none
    rw [hvnode]
    simp

/-- A file that has been opened can be closed. -/
theorem close_gives_back_tiny : ∃ (s : VfsState (NyfsState MemoryDisk)) (g : Handle),
    SessionRun ⟨s, [(g, some 0)]⟩ ∧ ∃ i, some 0 = some i ∧ GivesBack s g i := by
  obtain ⟨s, -, -, -, -, n, -, -, hops, hrun⟩ := tiny_session
  refine ⟨s, ⟨some n, 0, 1, some 0⟩, hrun, ?_⟩
  exact (close_gives_back_iff hrun List.mem_cons_self).mpr hops

/-- A file that is unlinked while it is open cannot be closed: its vnode has lost its operations. -/
theorem unlinked_file_stays_open : ∃ (s : VfsState (NyfsState MemoryDisk)) (g : Handle),
    SessionRun ⟨s, [(g, some 0)]⟩ ∧ (s.drv.fs.handleSlots 0).inUse = true ∧
      Vfs.vfsClose nyfsDrivers g s = (.error (.status .Nunsupported), s) := by
  have hname : OneComponent [97] := ⟨nameOk_a, by decide⟩
  obtain ⟨s, kids, ino, nodes, c, n, hcached, hnode, -, hrun⟩ := tiny_session
  obtain ⟨ds, v', nodes', -, -, -, -, -, hunlink⟩ := hcached.vfsUnlink hname hnode
  have hafter := hrun.step (.other (.unlink [] [47, 97]))
  rw [Session.step, OtherCall.exec, hunlink] at hafter
  have hused : (s.drv.fs.handleSlots 0).inUse = true := by
    obtain ⟨-, i, hi, -, hused⟩ := hrun.holds.carries _ List.mem_cons_self
    obtain rfl : 0 = i := Option.some.inj hi
    exact hused
  refine ⟨_, _, hafter, hused, ?_⟩
  rcases vfsClose_cases (D := MemoryDisk) ⟨some n, 0, 1, some 0⟩ _ with ⟨-, hclose⟩ | ⟨hops, -⟩
  · exact hclose
  · refine absurd ?_ hops
    rw [Vfs.opsOf]
    change Option.map _ (Function.update (withVolume s.drv 0 v').vnodes n _ n).ops = none
    rw [Function.update_self]
    rfl

end Nyfs
end Nyxis
