import Mathlib.Data.Finset.Insert
import Nyxis.Vfs.Calls

/-!
# Open files of the drivers

A driver keeps a slot for every file that is open through it, and the handle carries the slot.
The drivers are given by what they promise about their slots; the calls of the virtual file
system are followed through them.

Main results:

- Definition {lit}`FileDrivers`: the promises of the drivers.
- Theorem {lit}`FileDrivers.resolvePathInternal`: the resolution of a path opens and closes no
  file.
- Theorems {lit}`FileDrivers.vfsOpen`, {lit}`FileDrivers.vfsReopen`, {lit}`FileDrivers.vfsWrite` and
  {lit}`FileDrivers.vfsClose`: a file that is opened takes a new slot, and closing it gives the slot
  back.
-/

namespace Nyxis
namespace Vfs

variable {σ : Type}

/-- What drivers promise about the slots of their open files.  An open takes a new slot or fails and
takes none, a close gives back the slot of its handle, and no other call changes the slots.  A lookup
returns a vnode that was free, and no call changes a vnode that is in use. -/
structure FileDrivers (drivers : Nat → VfsOps σ) (used : σ → Finset Nat) : Prop where
  lookup : ∀ k call, (drivers k).lookup = some call → ∀ dir name d,
    used (call dir name d).2.fs = used d.fs ∧
      (∀ n, (d.vnodes n).inUse = true → (call dir name d).2.vnodes n = d.vnodes n) ∧
      ∀ n, (call dir name d).1 = .ok (some n) →
        (d.vnodes n).inUse = false ∧ ((call dir name d).2.vnodes n).inUse = true
  openFile : ∀ k call, (drivers k).openFile = some call → ∀ node flags h d,
    (call node flags h d).2.vnodes = d.vnodes ∧
      (∀ e, (call node flags h d).1 = .error e → used (call node flags h d).2.fs = used d.fs) ∧
      ∀ h', (call node flags h d).1 = .ok h' → (drivers k).close ≠ none ∧
        ∃ slot, slot ∉ used d.fs ∧ used (call node flags h d).2.fs = insert slot (used d.fs) ∧
          h' = { h with fsPrivate := some slot }
  write : ∀ k call, (drivers k).write = some call → ∀ h bytes d,
    (call h bytes d).2.vnodes = d.vnodes ∧ used (call h bytes d).2.fs = used d.fs
  close : ∀ k call, (drivers k).close = some call → ∀ h d slot, h.fsPrivate = some slot →
    (call h d).2.vnodes = d.vnodes ∧ used (call h d).2.fs = (used d.fs).erase slot

/-- The vnodes of the dentries are in use. -/
def NodesUsed (v : VfsState σ) : Prop :=
  ∀ d n, (v.dentries d).node = some n → (v.drv.vnodes n).inUse = true

/-- No file has been opened or closed, and the vnodes in use are as before. -/
structure Undisturbed (used : σ → Finset Nat) (v v' : VfsState σ) : Prop where
  used_eq : used v'.drv.fs = used v.drv.fs
  vnodes : ∀ n, (v.drv.vnodes n).inUse = true → v'.drv.vnodes n = v.drv.vnodes n

/-- A handle that can be closed: its vnode has a driver, and it carries a slot. -/
structure Closable (drivers : Nat → VfsOps σ) (v : VfsState σ) (h : Handle) (slot : Nat) : Prop where
  vnode : ∃ n k, h.vnode = some n ∧ (v.drv.vnodes n).inUse = true ∧ (v.drv.vnodes n).ops = some k ∧
    (drivers k).close ≠ none
  slot_eq : h.fsPrivate = some slot

variable {drivers : Nat → VfsOps σ} {used : σ → Finset Nat} {v v' v'' : VfsState σ}

theorem Undisturbed.refl (v : VfsState σ) : Undisturbed used v v :=
  ⟨rfl, fun _ _ => rfl⟩

theorem Undisturbed.trans (h : Undisturbed used v v') (h' : Undisturbed used v' v'') :
    Undisturbed used v v'' := by
  refine ⟨h'.used_eq.trans h.used_eq, fun n hn => ?_⟩
  have hkept := h.vnodes n hn
  rw [h'.vnodes n (by rw [hkept]; exact hn), hkept]

theorem Closable.congr {h : Handle} {slot : Nat} (hc : Closable drivers v h slot)
    (hsame : ∀ n, (v.drv.vnodes n).inUse = true → v'.drv.vnodes n = v.drv.vnodes n) :
    Closable drivers v' h slot := by
  obtain ⟨n, k, hn, hused, hops, hclose⟩ := hc.vnode
  refine ⟨⟨n, k, hn, ?_, ?_, hclose⟩, hc.slot_eq⟩
  · rw [hsame n hused]
    exact hused
  · rw [hsame n hused]
    exact hops

/-! ## Resolving a path -/

/-- A state that a call reaches without opening or closing a file. -/
def Quiet (used : σ → Finset Nat) (v v' : VfsState σ) : Prop :=
  NodesUsed v' ∧ Undisturbed used v v'

theorem Quiet.refl (h : NodesUsed v) : Quiet used v v :=
  ⟨h, Undisturbed.refl v⟩

theorem Quiet.trans (h : Quiet used v v') (h' : Quiet used v' v'') : Quiet used v v'' :=
  ⟨h'.1, h.2.trans h'.2⟩

/-- A dentry may get any links and a vnode in use. -/
theorem quiet_setDentry (h : NodesUsed v) {i : Nat} {f : Dentry → Dentry}
    (hnode : ∀ n, (f (v.dentries i)).node = some n → (v.drv.vnodes n).inUse = true) :
    Quiet used v (setDentry i f v).2 := by
  refine ⟨fun d n hn => ?_, rfl, fun _ _ => rfl⟩
  change (Function.update v.dentries i (f (v.dentries i)) d).node = some n at hn
  by_cases hd : d = i
  · rw [hd, Function.update_self] at hn
    exact hnode n hn
  · rw [Function.update_of_ne hd] at hn
    exact h d n hn

/-- A new dentry for a vnode in use, or none is free. -/
theorem allocDentry_post (h : NodesUsed v) (name : Name) {node : Option Nat} (parent : Option Nat)
    (hnode : ∀ n, node = some n → (v.drv.vnodes n).inUse = true) :
    Eff.Post (allocDentry name node parent) v
      (fun r v' => Quiet used v v' ∧ (r = .ok none → v' = v)) := by
  unfold allocDentry
  refine Eff.post_gets_bind ?_
  cases firstFree (fun i => (v.dentries i).inUse) vfsMaxDentries with
  | none => exact ⟨Quiet.refl h, fun _ => rfl⟩
  | some i =>
      have hset : Quiet used v (setDentry i (fun _ => { Dentry.zero with
          name := name.take vfsNameMax, node := node, parent := parent, inUse := true }) v).2 :=
        quiet_setDentry h hnode
      exact ⟨hset, nofun⟩

theorem attachChild_post (h : NodesUsed v) (parent child : Nat) :
    Eff.Post (attachChild parent child) v (fun _ v' => Quiet used v v') := by
  unfold attachChild
  refine Eff.post_gets_bind ?_
  have hchild : Quiet used v (setDentry child (fun e => { e with
      nextSibling := (v.dentries parent).firstChild }) v).2 :=
    quiet_setDentry h (fun n hn => h child n hn)
  refine Eff.post_bind_ok rfl ?_
  exact hchild.trans (quiet_setDentry hchild.1 (fun n hn => hchild.1 parent n hn))

theorem opsOf_eq_some {o : Option Nat} {n : Nat} {ops : VfsOps σ}
    (h : opsOf drivers v o = some (n, ops)) :
    o = some n ∧ ∃ k, (v.drv.vnodes n).ops = some k ∧ ops = drivers k := by
  cases o with
  | none => cases h
  | some m =>
      obtain ⟨k, hk, hpair⟩ := Option.map_eq_some_iff.mp h
      cases hpair
      exact ⟨rfl, k, hk, rfl⟩

/-- The outcome of a driver call. -/
theorem callDriver_post {α : Type} (call : DriverM σ α) (v : VfsState σ) :
    Eff.Post (callDriver call) v (fun r w =>
      r = (call v.drv).1 ∧ w = { v with drv := (call v.drv).2 }) :=
  ⟨rfl, rfl⟩

/-- One component of a path. -/
theorem FileDrivers.childStep (hD : FileDrivers drivers used) (h : NodesUsed v) (missing : Nstatus)
    (current : Nat) (name : Name) :
    Eff.Post (childStep drivers missing current name) v (fun _ v' => Quiet used v v') := by
  unfold Vfs.childStep
  have hfind : Eff.Post (findChild current name) v (fun _ v' => v' = v) := rfl
  refine Eff.post_bind hfind ?_ ?_
  · rintro e v' rfl
    exact Quiet.refl h
  rintro found v' rfl
  cases found with
  | some child => exact Quiet.refl h
  | none =>
      refine Eff.post_gets_bind ?_
      cases hops : opsOf drivers v' (v'.dentries current).node with
      | none => exact Quiet.refl h
      | some entry =>
          obtain ⟨dir, ops⟩ := entry
          obtain ⟨-, k, -, rfl⟩ := opsOf_eq_some hops
          dsimp only
          cases hlookup : (drivers k).lookup with
          | none => exact Quiet.refl h
          | some call =>
              obtain ⟨hused, hkept, hnew⟩ := hD.lookup k call hlookup dir name v'.drv
              have hquiet : Quiet used v' { v' with drv := (call dir name v'.drv).2 } := by
                refine ⟨fun d n hn => ?_, hused, hkept⟩
                have hn' := h d n hn
                rw [hkept n hn']
                exact hn'
              refine Eff.post_bind (callDriver_post (call dir name) v') ?_ ?_
              · rintro e w ⟨-, rfl⟩
                exact hquiet
              rintro vnode w ⟨hr, rfl⟩
              cases vnode with
              | none => exact hquiet
              | some n =>
                  obtain ⟨hfree, hset⟩ := hnew n hr.symm
                  dsimp only
                  have hnode : ∀ m, some n = some m →
                      ((call dir name v'.drv).2.vnodes m).inUse = true := by
                    rintro m ⟨⟩
                    exact hset
                  have halloc := @allocDentry_post σ used _ hquiet.1 name _ (some current) hnode
                  refine Eff.post_bind halloc (fun e w hw => hquiet.trans hw.1) ?_
                  rintro made w ⟨hw, hnone⟩
                  cases made with
                  | some child =>
                      dsimp only
                      have hattach := @attachChild_post σ used _ hw.1 current child
                      exact Eff.post_bind hattach (fun e w' hw' => (hquiet.trans hw).trans hw')
                        (fun _ w' hw' => (hquiet.trans hw).trans hw')
                  | none =>
                      -- the vnode was free before the lookup, so no dentry has it
                      obtain rfl := hnone rfl
                      refine ⟨fun d m hm => ?_, hused, fun m hm => ?_⟩
                      · have hm' := h d m hm
                        have hne : m ≠ n := by
                          rintro rfl
                          rw [hfree] at hm'
                          cases hm'
                        change (Function.update (call dir name v'.drv).2.vnodes n _ m).inUse = true
                        rw [Function.update_of_ne hne, hkept m hm']
                        exact hm'
                      · have hne : m ≠ n := by
                          rintro rfl
                          rw [hfree] at hm
                          cases hm
                        change Function.update (call dir name v'.drv).2.vnodes n _ m = _
                        rw [Function.update_of_ne hne, hkept m hm]

theorem FileDrivers.resolveLoop (hD : FileDrivers drivers used) (h : NodesUsed v) (fuel current : Nat)
    (cursor : List UInt8) :
    Eff.Post (resolveLoop drivers fuel current cursor) v (fun _ v' => Quiet used v v') := by
  induction fuel generalizing v current cursor with
  | zero => exact Quiet.refl h
  | succ fuel ih =>
      unfold Vfs.resolveLoop
      by_cases hnil : cursor = []
      · rw [if_pos hnil]
        exact Quiet.refl h
      · rw [if_neg hnil]
        cases parseSegment cursor with
        | error e => exact Quiet.refl h
        | ok segment =>
            obtain ⟨name, rest⟩ := segment
            dsimp only
            by_cases hname : name = []
            · rw [if_pos hname]
              exact Quiet.refl h
            · rw [if_neg hname]
              refine Eff.post_bind (hD.childStep h .NfileNotFound current name)
                (fun e w hw => hw) (fun child w hw => ?_)
              exact Eff.post_mono (ih hw.1 child rest) (fun _ w' hw' => hw.trans hw')

/-- Without the wish to create it, a namespace is only looked up. -/
theorem resolveNamespacePath_post (v : VfsState σ) (buffer path : List UInt8) :
    Eff.Post (resolveNamespacePath buffer path false) v (fun _ v' => v' = v) := by
  unfold resolveNamespacePath
  cases parseNamespacePath buffer path with
  | error e => rfl
  | ok parsed =>
      obtain ⟨name, localPath⟩ := parsed
      have hget : Eff.Post (getNamespace name false) v (fun _ v' => v' = v) := by
        unfold getNamespace
        by_cases hname : name = []
        · rw [if_pos hname]
          rfl
        · rw [if_neg hname]
          refine Eff.post_gets_bind ?_
          dsimp only
          rw [if_pos (Or.inr rfl)]
          rfl
      refine Eff.post_bind hget (fun e w hw => hw) ?_
      rintro found w rfl
      cases found with
      | none => rfl
      | some ns => rfl

/-- The resolution of a path opens and closes no file. -/
theorem FileDrivers.resolvePathInternal (hD : FileDrivers drivers used) (h : NodesUsed v)
    (buffer path : List UInt8) :
    Eff.Post (resolvePathInternal drivers buffer path) v (fun _ v' => Quiet used v v') := by
  unfold Vfs.resolvePathInternal
  refine Eff.post_bind (resolveNamespacePath_post v buffer path) ?_ ?_
  · rintro e w rfl
    exact Quiet.refl h
  rintro ⟨ns, localPath⟩ w rfl
  exact Eff.post_gets_bind (hD.resolveLoop h _ _ _)

/-! ## Files -/

/-- A state in which one more file is open, with a new slot. -/
structure Opened (drivers : Nat → VfsOps σ) (used : σ → Finset Nat) (v v' : VfsState σ) (g : Handle)
    (slot : Nat) : Prop where
  nodes : NodesUsed v'
  vnodes : ∀ n, (v.drv.vnodes n).inUse = true → v'.drv.vnodes n = v.drv.vnodes n
  fresh : slot ∉ used v.drv.fs
  used_eq : used v'.drv.fs = insert slot (used v.drv.fs)
  closable : Closable drivers v' g slot

/-- A call that opens a file or fails and opens none. -/
def OpensFile (drivers : Nat → VfsOps σ) (used : σ → Finset Nat) (v : VfsState σ) :
    Except Stop Handle → VfsState σ → Prop
  | .ok g, v' => ∃ slot, Opened drivers used v v' g slot
  | .error _, v' => Quiet used v v'

theorem Quiet.opened {g : Handle} {slot : Nat} (h : Quiet used v v')
    (h' : Opened drivers used v' v'' g slot) : Opened drivers used v v'' g slot := by
  refine ⟨h'.nodes, fun n hn => ?_, ?_, ?_, h'.closable⟩
  · have hkept := h.2.vnodes n hn
    rw [h'.vnodes n (by rw [hkept]; exact hn), hkept]
  · rw [← h.2.used_eq]
    exact h'.fresh
  · rw [h'.used_eq, h.2.used_eq]

theorem Quiet.opensFile {r : Except Stop Handle} (h : Quiet used v v')
    (h' : OpensFile drivers used v' r v'') : OpensFile drivers used v r v'' := by
  cases r with
  | ok g =>
      obtain ⟨slot, hopened⟩ := h'
      exact ⟨slot, h.opened hopened⟩
  | error e => exact h.trans h'

/-- A call that opens and closes no file keeps the new one open. -/
theorem Opened.quiet {g g' : Handle} {slot : Nat} (h : Opened drivers used v v' g slot)
    (h' : Quiet used v' v'') (hvnode : g'.vnode = g.vnode) (hslot : g'.fsPrivate = g.fsPrivate) :
    Opened drivers used v v'' g' slot := by
  refine ⟨h'.1, fun n hn => ?_, h.fresh, ?_, ?_⟩
  · have hkept := h.vnodes n hn
    rw [h'.2.vnodes n (by rw [hkept]; exact hn), hkept]
  · rw [h'.2.used_eq, h.used_eq]
  · obtain ⟨n, k, hn, hrest⟩ := (h.closable.congr h'.2.vnodes).vnode
    exact ⟨⟨n, k, hvnode.trans hn, hrest⟩, hslot.trans h.closable.slot_eq⟩

/-- The open operation of a vnode in use. -/
theorem FileDrivers.callOpen (hD : FileDrivers drivers used) (h : NodesUsed v) {n k : Nat}
    (hn : (v.drv.vnodes n).inUse = true) (hk : (v.drv.vnodes n).ops = some k)
    {call : Nat → Nat → Handle → DriverM σ Handle} (hcall : (drivers k).openFile = some call)
    (flags : Nat) {g : Handle} (hg : g.vnode = some n) :
    Eff.Post (callDriver (call n flags g)) v (fun r v' => OpensFile drivers used v r v') := by
  obtain ⟨hvnodes, hfailed, hopened⟩ := hD.openFile k call hcall n flags g v.drv
  have hnodes : NodesUsed { v with drv := (call n flags g v.drv).2 } := by
    intro d m hm
    change ((call n flags g v.drv).2.vnodes m).inUse = true
    rw [hvnodes]
    exact h d m hm
  have hkept : ∀ m, (v.drv.vnodes m).inUse = true →
      (call n flags g v.drv).2.vnodes m = v.drv.vnodes m := fun m _ => by rw [hvnodes]
  change OpensFile drivers used v (call n flags g v.drv).1 { v with drv := (call n flags g v.drv).2 }
  cases hr : (call n flags g v.drv).1 with
  | error e => exact ⟨hnodes, hfailed e hr, hkept⟩
  | ok g' =>
      obtain ⟨hclose, slot, hnew, hinsert, rfl⟩ := hopened g' hr
      refine ⟨slot, hnodes, hkept, hnew, hinsert, ⟨n, k, hg, ?_, ?_, hclose⟩, rfl⟩
      · exact (hkept n hn).symm ▸ hn
      · exact (hkept n hn).symm ▸ hk

theorem FileDrivers.vfsOpen (hD : FileDrivers drivers used) (h : NodesUsed v)
    (buffer path : List UInt8) (flags : Nat) :
    Eff.Post (vfsOpen drivers buffer path flags) v (fun r v' => OpensFile drivers used v r v') := by
  unfold Vfs.vfsOpen
  refine Eff.post_bind (hD.resolvePathInternal h buffer path)
    (fun e w hw => hw) (fun target w hw => ?_)
  refine Eff.post_gets_bind ?_
  cases hops : opsOf drivers w (w.dentries target).node with
  | none => exact hw
  | some entry =>
      obtain ⟨n, ops⟩ := entry
      obtain ⟨hnode, k, hk, rfl⟩ := opsOf_eq_some hops
      dsimp only
      cases hcall : (drivers k).openFile with
      | none => exact hw
      | some call =>
          exact Eff.post_mono (hD.callOpen hw.1 (hw.1 target n hnode) hk hcall flags rfl)
            (fun r w' hw' => hw.opensFile hw')

/-- A handle that can be closed can be opened again. -/
theorem FileDrivers.vfsReopen (hD : FileDrivers drivers used) (h : NodesUsed v) {g : Handle}
    {slot : Nat} (hg : Closable drivers v g slot) :
    Eff.Post (vfsReopen drivers g) v (fun r v' => OpensFile drivers used v r v') := by
  obtain ⟨n, k, hn, hused, hk, -⟩ := hg.vnode
  unfold Vfs.vfsReopen
  refine Eff.post_gets_bind ?_
  have hops : opsOf drivers v g.vnode = some (n, drivers k) := by
    rw [hn, opsOf, hk, Option.map_some]
  rw [hops]
  dsimp only
  cases hcall : (drivers k).openFile with
  | none => exact Quiet.refl h
  | some call => exact hD.callOpen h hused hk hcall g.flags (by exact hn)

/-- A write opens and closes no file, and its handle stays the same but for the position. -/
theorem FileDrivers.vfsWrite (hD : FileDrivers drivers used) (h : NodesUsed v) (g : Handle)
    (bytes : List UInt8) :
    Eff.Post (vfsWrite drivers g bytes) v (fun r v' => Quiet used v v' ∧
      ∀ written g', r = .ok (written, g') → g'.vnode = g.vnode ∧ g'.fsPrivate = g.fsPrivate) := by
  unfold Vfs.vfsWrite
  refine Eff.post_gets_bind ?_
  cases hops : opsOf drivers v g.vnode with
  | none => exact ⟨Quiet.refl h, nofun⟩
  | some entry =>
      obtain ⟨n, ops⟩ := entry
      obtain ⟨-, k, -, rfl⟩ := opsOf_eq_some hops
      dsimp only
      cases hcall : (drivers k).write with
      | none => exact ⟨Quiet.refl h, nofun⟩
      | some call =>
          obtain ⟨hvnodes, hused⟩ := hD.write k call hcall g bytes v.drv
          have hquiet : Quiet used v { v with drv := (call g bytes v.drv).2 } := by
            refine ⟨fun d m hm => ?_, hused, fun m _ => ?_⟩
            · change ((call g bytes v.drv).2.vnodes m).inUse = true
              rw [hvnodes]
              exact h d m hm
            · change (call g bytes v.drv).2.vnodes m = v.drv.vnodes m
              rw [hvnodes]
          refine Eff.post_bind (callDriver_post (call g bytes) v) ?_ ?_
          · rintro e w ⟨-, rfl⟩
            exact ⟨hquiet, nofun⟩
          · rintro written w ⟨-, rfl⟩
            refine ⟨hquiet, ?_⟩
            rintro _ _ ⟨⟩
            exact ⟨rfl, rfl⟩

/-- Closing a handle gives back its slot. -/
theorem FileDrivers.vfsClose (hD : FileDrivers drivers used) (h : NodesUsed v) {g : Handle}
    {slot : Nat} (hg : Closable drivers v g slot) :
    Eff.Post (vfsClose drivers g) v (fun _ v' => NodesUsed v' ∧ v'.drv.vnodes = v.drv.vnodes ∧
      used v'.drv.fs = (used v.drv.fs).erase slot) := by
  obtain ⟨n, k, hn, hused, hk, hclose⟩ := hg.vnode
  unfold Vfs.vfsClose
  refine Eff.post_gets_bind ?_
  have hops : opsOf drivers v g.vnode = some (n, drivers k) := by
    rw [hn, opsOf, hk, Option.map_some]
  rw [hops]
  dsimp only
  cases hcall : (drivers k).close with
  | none => exact absurd hcall hclose
  | some call =>
      obtain ⟨hvnodes, herase⟩ := hD.close k call hcall g v.drv slot hg.slot_eq
      have hpost : NodesUsed { v with drv := (call g v.drv).2 } ∧
          (call g v.drv).2.vnodes = v.drv.vnodes ∧
          used (call g v.drv).2.fs = (used v.drv.fs).erase slot := by
        refine ⟨fun d m hm => ?_, hvnodes, herase⟩
        change ((call g v.drv).2.vnodes m).inUse = true
        rw [hvnodes]
        exact h d m hm
      refine Eff.post_bind (callDriver_post (call g) v) ?_ ?_
      · rintro e w ⟨-, rfl⟩
        exact hpost
      · rintro _ w ⟨-, rfl⟩
        exact hpost

end Vfs
end Nyxis
