import Nyxis.Nyfs.Contents

/-!
# Calls that fail

What a failed creation, write or rename leaves behind, on every volume that a run reaches.  Each
theorem says exactly when the call undoes what it has done.

Main results:

- Theorem {lit}`failed_create_leaks_nothing_iff`: creations.
- Theorem {lit}`failed_write_changes_nothing_iff`: writes.
- Theorem {lit}`rename_atomic_unless_full`: renames.
-/

namespace Nyxis
namespace Nyfs

open Bitmap Vfs

variable {D : Type} [ReliableDevice D] {L : Layout} {V V' : View} {nodes nodes' : Nat → Node}
variable {v v' : Volume D} {p : MkfsParams} {d : D} {i parent : Nat}

/-! ## Creating -/

/-- No inode has been taken, and every block that has been taken belongs to the hash table of the
directory. -/
def LeaksNothing (v v' : Volume D) (parent : Nat) : Prop :=
  v'.view.inodeBit = v.view.inodeBit ∧
    ∀ b, v'.view.blockBit b = true → v.view.blockBit b = false →
      ∃ segs, Chain v'.sb.layout v'.view (v'.view.inode parent).dirHashRoot segs ∧
        b ∈ chainBlocks segs

/-- A failed creation on an inventory leaks nothing unless it leaks for lack of space. -/
theorem MakeOutcome.leaksNothing_iff {isDir : Bool} {name : List UInt8} {mode : Nat} {cred : Cred}
    {e : Stop} (hsound : Sound L v nodes) (hsound' : Sound L v' nodes')
    (hparent : Live L v.view parent)
    (h : MakeOutcome L v.view nodes isDir parent name mode cred v'.view nodes' (.error e)) :
    LeaksNothing v v' parent ↔
      ¬(MakeStarts L v.view (nodes parent) (v.view.inode parent) name cred ∧
        MakeLeaks L v.view (nodes parent) (v.view.inode parent) name isDir) := by
  cases h with
  | failed e leaked hsame hnodes hbits hfresh hleak hno =>
      rw [← hleak, not_not]
      constructor
      · rintro ⟨-, hchain⟩
        by_contra hne
        obtain ⟨b, hb⟩ := List.exists_mem_of_ne_nil leaked hne
        obtain ⟨hstarts, -⟩ := hleak.mp hne
        obtain ⟨segs, hsegs, hmem⟩ := hchain b (by rw [hbits]; simp [mark, hb]) (hfresh b hb)
        have hkept := hsame.kept parent hparent
        have htype : (v'.view.inode parent).type = nyfsInoTypeDir := by
          rw [Inode.type_of_core hkept.core]
          exact hstarts.type
        have hdir := ((hsound'.inventory.holds parent hkept.live).dir htype).1
        rw [hsound'.mounted.layout] at hsegs
        obtain rfl := hdir.stream.chain.unique hsound.valid hsegs
        rw [hnodes parent hparent] at hmem
        have hset := hsound.inventory.set parent hparent b (List.mem_append_right _ hmem)
        rw [hfresh b hb] at hset
        cases hset
      · rintro rfl
        refine ⟨hsame.inodeBit, fun b hset hclear => ?_⟩
        rw [hbits, mark_nil, hclear] at hset
        cases hset

/-- A successful creation takes an inode. -/
theorem MakeOutcome.not_leaksNothing {isDir : Bool} {name : List UInt8} {mode : Nat} {cred : Cred}
    {ino : Nat} (h : MakeOutcome L v.view nodes isDir parent name mode cred v'.view nodes' (.ok ino)) :
    ¬LeaksNothing v v' parent := by
  cases h with
  | made i hstarts hmade =>
      rintro ⟨hbit, -⟩
      rw [hmade.inodeBit] at hbit
      have hset := congrFun hbit ino
      rw [Function.update_self, (firstClear_some hmade.first).2.2] at hset
      cases hset

/-- A failed creation leaks nothing exactly when it has not taken blocks for the new inode before it
finds the disk full; through the kernel, the pools must also have room for the new vnode. -/
theorem failed_create_leaks_nothing_iff (hsmall : p.Small) (h : Reachable anyRequest p d v)
    (hfound : Found v parent) (isDir : Bool) (name : List UInt8) (mode : Nat) {cred : Cred}
    (hcred : cred.Fits) :
    ∃ nodes, Sound p.layout v nodes ∧
      (∀ e, (makeNode isDir parent name mode cred v).1 = .error e →
        (LeaksNothing v (makeNode isDir parent name mode cred v).2 parent ↔
          ¬(MakeStarts p.layout v.view (nodes parent) (v.view.inode parent) name cred ∧
            MakeLeaks p.layout v.view (nodes parent) (v.view.inode parent) name isDir))) ∧
      (∀ (s : Drivers (NyfsState D)) dir vol e, VnodeOf s dir vol parent → s.fs.volumes vol = v →
        s.fs.cred = cred → (nyfsMake isDir dir name mode s).1 = .error e →
        (LeaksNothing v ((nyfsMake isDir dir name mode s).2.fs.volumes vol) parent ↔
          ¬(MakeStarts p.layout v.view (nodes parent) (v.view.inode parent) name cred ∧
            (MakeLeaks p.layout v.view (nodes parent) (v.view.inode parent) name isDir ∨
              MakeFits p.layout v.view (nodes parent) (v.view.inode parent) name isDir ∧
                NoVnode s)))) := by
  obtain ⟨nodes, hsound⟩ := h.inventory hsmall
  have hlive := hfound.live hsound.valid hsound.mounted hsound.inventory
  obtain ⟨r, V', nodes', hdoes, hinv, hout⟩ := hsound.inventory.makeNode (D := D) hsound.valid hlive
    isDir name mode hcred
  obtain ⟨v', hrun, hmounted, rfl, -⟩ := hdoes.run hsound.valid hsound.mounted rfl
  have hsound' : Sound p.layout v' nodes' := ⟨hsound.valid, hmounted, hinv⟩
  rw [hrun]
  refine ⟨nodes, hsound, ?_, ?_⟩
  · rintro e rfl
    exact hout.leaksNothing_iff hsound hsound' hlive
  · rintro s dir vol e hdir rfl rfl herr
    obtain ⟨hvolume, hcases⟩ := nyfsMake_cases hdir
    rw [hvolume]
    rw [hrun] at hcases ⊢
    rcases hcases with ⟨e', rfl, -⟩ | ⟨ino, rfl, hok | ⟨-, hno⟩⟩
    · -- the creation on the volume has failed
      rw [hout.leaksNothing_iff hsound hsound' hlive]
      cases hout with
      | failed _ _ _ _ _ _ _ hfits =>
          constructor
          · rintro hleak ⟨hstarts, hbad | ⟨hfit, -⟩⟩
            · exact hleak ⟨hstarts, hbad⟩
            · exact hfits ⟨hstarts, hfit⟩
          · rintro hgood ⟨hstarts, hbad⟩
            exact hgood ⟨hstarts, Or.inl hbad⟩
    · obtain ⟨child, hok⟩ := hok
      rw [hok] at herr
      cases herr
    · -- the file is there, but no vnode for it
      refine iff_of_false hout.not_leaksNothing (not_not.mpr ?_)
      cases hout with
      | made _ hstarts _ hfits _ => exact ⟨hstarts, Or.inr ⟨hfits, hno⟩⟩

theorem failed_create_leaks_nothing_iff_small : ∃ (v : Volume MemoryDisk) (nodes : Nat → Node),
    Reachable anyRequest (tinyParams 114) ⟨fun _ => 0⟩ v ∧
      ∀ e, (makeNode true nyfsRootIno [97] 0o755 ⟨0, 0⟩ v).1 = .error e →
        (LeaksNothing v (makeNode true nyfsRootIno [97] 0o755 ⟨0, 0⟩ v).2 nyfsRootIno ↔
          ¬(MakeStarts (tinyParams 114).layout v.view (nodes nyfsRootIno) (v.view.inode nyfsRootIno)
              [97] ⟨0, 0⟩ ∧
            MakeLeaks (tinyParams 114).layout v.view (nodes nyfsRootIno) (v.view.inode nyfsRootIno)
              [97] true)) := by
  have hsmall : (tinyParams 114).Small := ⟨by decide, by decide⟩
  obtain ⟨v, -, hreach, -⟩ := tiny_opens (D := MemoryDisk) anyRequest (Or.inl rfl) ⟨fun _ => 0⟩
  obtain ⟨nodes, -, hiff, -⟩ := failed_create_leaks_nothing_iff hsmall hreach Found.root true [97]
    0o755 (show Cred.Fits ⟨0, 0⟩ from ⟨by decide, by decide⟩)
  exact ⟨v, nodes, hreach, hiff⟩

/-- Names that fill the root directory of a volume with small blocks. -/
def longName (byte : UInt8) : List UInt8 :=
  List.replicate 255 byte

theorem length_longName (byte : UInt8) : (longName byte).length = 255 :=
  List.length_replicate

theorem longName_ok (byte : UInt8) : NameOk (longName byte) :=
  ⟨by rw [length_longName]; decide, by rw [length_longName]; decide⟩

/-- With a second long name in the root directory a new directory finds no room for its name after
it has taken the last two blocks for its table. -/
theorem OneFile.mkdir_leaks (h : OneFile (tinyParams 114).layout V nodes (longName 97)) :
    MakeStarts (tinyParams 114).layout V (nodes nyfsRootIno) (V.inode nyfsRootIno) (longName 98)
        ⟨0, 0⟩ ∧
      MakeLeaks (tinyParams 114).layout V (nodes nyfsRootIno) (V.inode nyfsRootIno) (longName 98)
        true := by
  have hne : longName 98 ≠ longName 97 := by decide
  have hbits := h.bits_eq
  refine ⟨⟨h.rootType, Or.inl rfl, longName_ok 98, ?_, ?_⟩, [], h.rootAcl true, Or.inr
    ⟨[62, 63], ?_, by decide, ?_, ?_⟩⟩
  · rw [h.find, Function.update_of_ne hne]
  · intro hnone
    have hset := firstClear_none (j := 3) hnone (Nat.zero_le _) (by decide)
    rw [h.inodeBit] at hset
    exact absurd hset (by decide)
  · rw [mark_nil, hbits]
    decide +kernel
  · rw [h.rootCapacity, h.rootFree, length_longName, length_longName]
    decide
  · have hfull : firstClear (mark V.blockBit ([] ++ [62, 63])) (tinyParams 114).layout.totalBlocks 0 =
        none := by
      rw [hbits]
      decide +kernel
    rw [planOne, hfull, Option.bind_none]

/-- A directory is made when two blocks are free and the parent has no room: the two blocks are
lost. -/
theorem failed_mkdir_leaks : ∃ v : Volume MemoryDisk,
    Reachable anyRequest (tinyParams 114) ⟨fun _ => 0⟩ v ∧
      (∃ e, (makeNode true nyfsRootIno (longName 98) 0o755 ⟨0, 0⟩ v).1 = .error e) ∧
      ¬LeaksNothing v (makeNode true nyfsRootIno (longName 98) 0o755 ⟨0, 0⟩ v).2 nyfsRootIno := by
  obtain ⟨v, nodes, hreach, hsound, hfile⟩ := tiny_file (D := MemoryDisk) anyRequest
    (Or.inl rfl) ⟨fun _ => 0⟩ (longName_ok 97) (fun _ => trivial)
  have hleaks := hfile.mkdir_leaks
  have hroot := hsound.inventory.root.1
  obtain ⟨r, V', nodes', hdoes, hinv, hout⟩ := hsound.inventory.makeNode (D := MemoryDisk)
    hsound.valid hroot true (longName 98) 0o755 (show Cred.Fits ⟨0, 0⟩ from ⟨by decide, by decide⟩)
  obtain ⟨v', hrun, hmounted, rfl, -⟩ := hdoes.run hsound.valid hsound.mounted rfl
  refine ⟨v, hreach, ?_⟩
  rw [hrun]
  cases r with
  | ok ino =>
      cases hout with
      | made _ _ _ hfits => exact absurd hleaks.2 hfits.not_leaks
  | error e =>
      refine ⟨⟨e, rfl⟩, ?_⟩
      rw [hout.leaksNothing_iff hsound ⟨hsound.valid, hmounted, hinv⟩ hroot, not_not]
      exact hleaks

/-! ## Writing -/

/-- Size, content, block bitmap and free counter are the same. -/
structure Unchanged (v v' : Volume D) (ino : Nat) : Prop where
  size : (v'.view.inode ino).size = (v.view.inode ino).size
  content : ∀ off n, (fileRead ino off n v').1 = (fileRead ino off n v).1
  blockBit : v'.view.blockBit = v.view.blockBit
  freeBlocks : v'.sb.freeBlocks = v.sb.freeBlocks

/-- The host checks the access before it writes; the kernel has done so when the file was
opened. -/
def Request.Permitted (V : View) : Request → Prop
  | .write ino cred _ _ => Grants V (V.inode ino) cred nyfsAceWriteData
  | _ => True

/-- A write that fails after it has changed something.  There is room for its first block and not
for all of them; or the end of its range is beyond the 64-bit numbers, and it has taken blocks or
has changed bytes of the content before it runs off the end of the stream. -/
def WriteSpoils (L : Layout) (V : View) (n : Node) (x : Inode) (off : Nat) (bytes : List UInt8) :
    Prop :=
  bytes ≠ [] ∧
    (planMany L (growthNeed L n.data off bytes.length) V.blockBit (tailOf n.data) = none ∧
        planOne L V.blockBit (tailOf n.data) ≠ none ∨
      ∃ ds, planMany L (growthNeed L n.data off bytes.length) V.blockBit (tailOf n.data) = some ds ∧
        2 ^ 64 ≤ off + bytes.length + L.blockSize - 1 ∧
        capacity L n.data + ds.length * L.blockSize < off + bytes.length ∧
        (ds ≠ [] ∨ ∃ o, o < min x.size (capacity L n.data) ∧
          splice (streamAt L V (dataBlocks n.data)) off bytes o ≠
            streamAt L V (dataBlocks n.data) o))

/-- A volume with the same view. -/
theorem Unchanged.of_view (hsound : Sound L v nodes) (hsound' : Sound L v' nodes)
    (hi : Live L v.view i) (hview : v'.view = v.view) : Unchanged v v' i := by
  refine ⟨by rw [hview], fun off n => ?_, by rw [hview], ?_⟩
  · rw [hsound'.fileRead (by rw [hview]; exact hi), hsound.fileRead hi, hview]
  · exact congrArg View.freeBlocks hview

theorem mark_ne {bits : Nat → Bool} {taken : List Nat} (hne : taken ≠ [])
    (hfresh : ∀ b ∈ taken, bits b = false) : mark bits taken ≠ bits := by
  intro heq
  obtain ⟨b, hb⟩ := List.exists_mem_of_ne_nil taken hne
  have hset := congrFun heq b
  rw [hfresh b hb] at hset
  simp [mark, hb] at hset

theorem planned_ne_nil {ds : List (Nat × List Nat)} (h : ds ≠ []) : planned ds ≠ [] := by
  cases ds with
  | nil => exact absurd rfl h
  | cons q ds => exact List.cons_ne_nil _ _

/-- A failed write on an inventory. -/
theorem FileWrite.unchanged_iff {off : Nat} {bytes : List UInt8} {e : Stop}
    (hsound : Sound L v nodes) (hsound' : Sound L v' nodes') (hi : Live L v.view i)
    (hi' : Live L v'.view i)
    (h : FileWrite L v.view nodes i off bytes v'.view nodes' (.error e)) :
    Unchanged v v' i ↔ ¬WriteSpoils L v.view (nodes i) (v.view.inode i) off bytes := by
  cases h with
  | full taken hne hplan htaken hsame hinode hbits hfresh hgrown hstream =>
      by_cases hone : planOne L v.view.blockBit (tailOf (nodes i).data) = none
      · obtain ⟨hview, rfl⟩ := hsame (htaken.mpr hone)
        refine iff_of_true (Unchanged.of_view hsound hsound' hi hview) ?_
        rintro ⟨-, ⟨-, hsome⟩ | ⟨ds, hsome, -⟩⟩
        · exact hsome hone
        · rw [hplan] at hsome
          cases hsome
      · refine iff_of_false (fun hsame => ?_) (not_not.mpr ⟨hne, Or.inl ⟨hplan, hone⟩⟩)
        refine mark_ne (mt htaken.mp hone) hfresh ?_
        rw [← hbits, hsame.blockBit]
  | wrapped ds hne hplan hwrap hlt hinode hbits hfresh hgrown hkept hstream =>
      by_cases hds : ds = []
      swap
      · refine iff_of_false (fun hsame => ?_)
          (not_not.mpr ⟨hne, Or.inr ⟨ds, hplan, hwrap, hlt, Or.inl hds⟩⟩)
        refine mark_ne (planned_ne_nil hds) hfresh ?_
        rw [← hbits, hsame.blockBit]
      have hblocks := hkept hds
      have hcap : capacity L (nodes' i).data = capacity L (nodes i).data := by
        rw [capacity, capacity, hblocks]
      constructor
      · rintro hsame ⟨-, ⟨hnone, -⟩ | ⟨ds', hplan', -, -, hbad⟩⟩
        · rw [hplan] at hnone
          cases hnone
        · rw [hplan] at hplan'
          obtain rfl := Option.some.inj hplan'
          rcases hbad with hbad | ⟨o, ho, hbad⟩
          · exact hbad hds
          · have hread := (hsound.fileRead_one hi o _).mpr ⟨by omega, by omega, rfl⟩
            rw [← hsame.content, hsound'.fileRead_one hi', hblocks, hstream o (by omega)] at hread
            exact hbad hread.2.2
      · intro hgood
        have hsize : (v'.view.inode i).size = (v.view.inode i).size := by rw [hinode]
        have hbits' : v'.view.blockBit = v.view.blockBit := by
          rw [hbits, hds]
          exact mark_nil _
        refine ⟨hsize, fun o n => ?_, hbits', ?_⟩
        · have hcontent : (nodes' i).content L v'.view (v'.view.inode i) =
              (nodes i).content L v.view (v.view.inode i) := by
            rw [Node.content, Node.content, hsize, hcap, hblocks]
            refine bytesAt_congr (fun o _ ho => ?_)
            rw [hstream o (by omega)]
            by_contra hbad
            exact hgood ⟨hne, Or.inr ⟨ds, hplan, hwrap, hlt, Or.inr ⟨o, by omega, hbad⟩⟩⟩
          rw [hsound'.fileRead hi', hsound.fileRead hi, hcontent]
        · have hfree := hsound.inventory.ready.freeBlocks
          have hfree' := hsound'.inventory.ready.freeBlocks
          rw [hbits'] at hfree'
          exact hfree'.trans hfree.symm

/-- A failed write changes nothing exactly when it is refused, or fails at its first block, or runs
off the end of the stream without having taken a block or changed a byte. -/
theorem failed_write_changes_nothing_iff (hsmall : p.Small) (h : Reachable anyRequest p d v)
    (hfound : Found v i) {q : Request} {off : Nat} {bytes : List UInt8} (hq : q.Writes i off bytes)
    (hfits : q.Fits) {e : Stop} (herr : (q.exec v).1 = .error e) :
    ∃ nodes, Sound p.layout v nodes ∧
      (Unchanged v (q.exec v).2 i ↔
        ¬(q.Permitted v.view ∧
          WriteSpoils p.layout v.view (nodes i) (v.view.inode i) off bytes)) := by
  obtain ⟨nodes, hsound⟩ := h.inventory hsmall
  refine ⟨nodes, hsound, ?_⟩
  have hlive := hfound.live hsound.valid hsound.mounted hsound.inventory
  obtain ⟨nodes', hsound', heffect⟩ := hsound.exec q hfits (hq.found hfound)
  generalize q.exec v = run at herr hsound' heffect ⊢
  obtain ⟨r, w⟩ := run
  dsimp only at herr hsound' heffect ⊢
  -- a write that is permitted
  have hwrite : ∀ {r' : Except Stop Nat}, Touches p.layout v.view nodes i w.view nodes' →
      FileWrite p.layout v.view nodes i off bytes w.view nodes' r' →
      r'.map (fun _ => ()) = .error e → q.Permitted v.view →
      (Unchanged v w i ↔ ¬(q.Permitted v.view ∧
        WriteSpoils p.layout v.view (nodes i) (v.view.inode i) off bytes)) := by
    intro r' htouches hout hr hpermitted
    have hlive' := (live_congr htouches.inodeBit).mpr hlive
    rw [and_iff_right hpermitted]
    cases r' with
    | ok n => cases hr
    | error e' => exact hout.unchanged_iff hsound hsound' hlive hlive'
  rcases hq with ⟨cred, rfl⟩ | rfl
  · cases heffect with
    | denied hno hview hnodes =>
        subst hnodes
        exact iff_of_true (Unchanged.of_view hsound hsound' hlive hview) (fun hbad => hno hbad.1)
    | write hgrants htouches hout => exact hwrite htouches hout herr hgrants
  · cases heffect with
    | writeFile htouches hout => exact hwrite htouches hout herr trivial

/-- A write of two blocks to the file takes the last two blocks for one of them. -/
theorem OneFile.writeSpoils {name : List UInt8} (h : OneFile (tinyParams 114).layout V nodes name) :
    WriteSpoils (tinyParams 114).layout V (nodes 2) (V.inode 2) 512 [66] := by
  have hneed : growthNeed (tinyParams 114).layout [] 512 1 = 2 := by decide
  refine ⟨List.cons_ne_nil _ _, Or.inl ⟨?_, ?_⟩⟩
  · rw [h.data, List.length_singleton, hneed, h.bits_eq]
    decide +kernel
  · rw [h.data, h.bits_eq]
    decide +kernel

theorem OneFile.write_fails {name : List UInt8} (hsound : Sound (tinyParams 114).layout v nodes)
    (h : OneFile (tinyParams 114).layout v.view nodes name) (hfound : Found v 2) :
    ((Request.writeFile 2 512 [66]).exec v).1 = .error (.status .NdiskFull) ∧
      ¬Unchanged v ((Request.writeFile 2 512 [66]).exec v).2 2 := by
  have hspoils := h.writeSpoils
  obtain ⟨nodes', hsound', heffect⟩ := hsound.exec (.writeFile 2 512 [66])
    (show (512 : Nat) < 2 ^ 64 by decide)
    (fun i hi => by rw [List.mem_singleton.mp hi]; exact hfound)
  generalize (Request.writeFile 2 512 [66]).exec v = run at hsound' heffect ⊢
  obtain ⟨r, w⟩ := run
  dsimp only at hsound' heffect ⊢
  cases heffect with
  | @writeFile ino off bytes r htouches hout =>
      have hlive' := (live_congr htouches.inodeBit).mpr h.live
      have hnone : planMany (tinyParams 114).layout
          (growthNeed (tinyParams 114).layout (nodes 2).data 512 ([66] : List UInt8).length)
          v.view.blockBit (tailOf (nodes 2).data) = none := by
        obtain ⟨-, ⟨hnone, -⟩ | ⟨ds, -, hwrap, -⟩⟩ := hspoils
        · exact hnone
        · exact absurd hwrap (by decide)
      have hunchanged : ∀ e, r = .error e → ¬Unchanged v w 2 := by
        rintro e rfl
        rw [hout.unchanged_iff hsound hsound' h.live hlive', not_not]
        exact hspoils
      cases hout with
      | written ds root hplan =>
          rw [if_neg (List.cons_ne_nil _ _), hnone] at hplan
          cases hplan
      | full => exact ⟨rfl, hunchanged _ rfl⟩
      | wrapped ds _ hplan =>
          rw [hnone] at hplan
          cases hplan

theorem failed_write_changes_nothing_iff_small : ∃ (v : Volume MemoryDisk) (nodes : Nat → Node),
    Reachable anyRequest (tinyParams 114) ⟨fun _ => 0⟩ v ∧ Found v 2 ∧
      ((Request.writeFile 2 512 [66]).exec v).1 = .error (.status .NdiskFull) ∧
      (Unchanged v ((Request.writeFile 2 512 [66]).exec v).2 2 ↔
        ¬((Request.writeFile 2 512 [66]).Permitted v.view ∧
          WriteSpoils (tinyParams 114).layout v.view (nodes 2) (v.view.inode 2) 512 [66])) := by
  have hsmall : (tinyParams 114).Small := ⟨by decide, by decide⟩
  have hname : NameOk [97] := nameOk_a
  obtain ⟨v, nodes, hreach, hsound, hfile⟩ := tiny_file (D := MemoryDisk) anyRequest
    (Or.inl rfl) ⟨fun _ => 0⟩ hname (fun _ => trivial)
  have hfound := (hfile.inRoot hname).found hsound
  obtain ⟨herr, -⟩ := hfile.write_fails hsound hfound
  obtain ⟨nodes', -, hiff⟩ := failed_write_changes_nothing_iff hsmall hreach hfound (Or.inr rfl)
    (show (512 : Nat) < 2 ^ 64 by decide) herr
  exact ⟨v, nodes', hreach, hfound, herr, hiff⟩

/-- Two blocks are free and a write needs three: it fails, and the two blocks stay taken. -/
theorem failed_write_takes_blocks : ∃ v : Volume MemoryDisk,
    Reachable anyRequest (tinyParams 114) ⟨fun _ => 0⟩ v ∧ Found v 2 ∧
      ((Request.writeFile 2 512 [66]).exec v).1 = .error (.status .NdiskFull) ∧
      ¬Unchanged v ((Request.writeFile 2 512 [66]).exec v).2 2 := by
  have hname : NameOk [97] := nameOk_a
  obtain ⟨v, nodes, hreach, hsound, hfile⟩ := tiny_file (D := MemoryDisk) anyRequest
    (Or.inl rfl) ⟨fun _ => 0⟩ hname (fun _ => trivial)
  have hfound := (hfile.inRoot hname).found hsound
  exact ⟨v, hreach, hfound, hfile.write_fails hsound hfound⟩

/-! ## Renaming -/

/-- Every directory answers as before. -/
def SameNames (v v' : Volume D) : Prop :=
  ∀ j name, Found v j → (lookupName j name v').1 = (lookupName j name v).1

/-- The new name stands for what the old one stood for, the old name is gone, and no other name has
changed. -/
structure NameMoved (v v' : Volume D) (o : Nat) (oldName : List UInt8) (q : Nat)
    (newName : List UInt8) : Prop where
  target : ∃ found, (lookupName o oldName v).1 = .ok found ∧ (lookupName q newName v').1 = .ok found
  absent : (lookupName o oldName v').1 = .error (.status .NnotFound)
  others : ∀ j name, Found v j → ¬(j = o ∧ name = oldName) → ¬(j = q ∧ name = newName) →
    (lookupName j name v').1 = (lookupName j name v).1

/-- A name is gone, and no other name has changed. -/
structure NameLost (v v' : Volume D) (o : Nat) (oldName : List UInt8) : Prop where
  present : ∃ found, (lookupName o oldName v).1 = .ok found
  absent : (lookupName o oldName v').1 = .error (.status .NnotFound)
  others : ∀ j name, Found v j → ¬(j = o ∧ name = oldName) →
    (lookupName j name v').1 = (lookupName j name v).1

/-- A rename that passes its checks finds neither room for the new name nor room to put the old one
back. -/
def RenameLoses (L : Layout) (V : View) (nodes : Nat → Node) (o : Nat) (oldName : List UInt8)
    (q : Nat) (newName : List UInt8) (cred : Cred) : Prop :=
  ∃ found, RenameStarts V nodes o oldName q newName cred found ∧
    ¬(nodes q).HasRoom L V newName ∧ ¬(nodes o).HasRoom L V oldName

/-- A directory with the same record for a name answers as before. -/
theorem Sound.lookup_congr {j : Nat} {name : List UInt8} (hsound : Sound L v nodes)
    (hsound' : Sound L v' nodes') (hsteady : Steady L v.view nodes v'.view nodes')
    (hj : Found v j) (hfind : (nodes' j).find name = (nodes j).find name) :
    (Nyfs.lookupName j name v').1 = (Nyfs.lookupName j name v).1 := by
  have hlive := hj.live hsound.valid hsound.mounted hsound.inventory
  have hkept := hsteady.kept j hlive
  rw [hsound'.lookupName hkept.live, hsound.lookupName hlive, Inode.type_of_core hkept.core,
    Node.lookup, Node.lookup, hfind]

theorem Sound.lookup_find {j : Nat} {name : List UInt8} (hsound : Sound L v nodes)
    (hj : Live L v.view j) (htype : (v.view.inode j).type = nyfsInoTypeDir) (hname : NameOk name) :
    (Nyfs.lookupName j name v).1 = foundOr ((nodes j).find name) := by
  rw [hsound.lookupName hj, if_pos htype, Node.lookup, if_neg hname.not_invalid]

/-- What a rename comes to, as lookups see it. -/
theorem RenameOutcome.names {o q : Nat} {oldName newName : List UInt8} {cred : Cred}
    {r : Except Stop Unit} (hsound : Sound L v nodes) (hsound' : Sound L v' nodes')
    (ho : Found v o) (hq : Found v q)
    (h : RenameOutcome L v.view nodes o oldName q newName cred v'.view nodes' r) :
    (r = .ok () → (o = q ∧ oldName = newName ∧ SameNames v v') ∨
        (¬(o = q ∧ oldName = newName) ∧ NameMoved v v' o oldName q newName)) ∧
      (∀ e, r = .error e →
        (RenameLoses L v.view nodes o oldName q newName cred ∧ NameLost v v' o oldName) ∨
          (¬RenameLoses L v.view nodes o oldName q newName cred ∧ SameNames v v')) := by
  have hlive := ho.live hsound.valid hsound.mounted hsound.inventory
  have hlive' := hq.live hsound.valid hsound.mounted hsound.inventory
  have hrefl : v'.view = v.view → nodes' = nodes → SameNames v v' := by
    rintro hview rfl j name hj
    have hjlive := hj.live hsound.valid hsound.mounted hsound.inventory
    rw [hsound'.lookupName (by rw [hview]; exact hjlive), hsound.lookupName hjlive, hview]
  cases h with
  | failed e hno hview hnodes =>
      refine ⟨nofun, fun _ _ => Or.inr ⟨?_, hrefl hview hnodes⟩⟩
      rintro ⟨found, hstarts, -⟩
      exact hno found hstarts
  | same heq found hfind hview hnodes =>
      exact ⟨fun _ => Or.inl ⟨heq.1, heq.2, hrefl hview hnodes⟩, nofun⟩
  | moved found hstarts hroom hsteady hfinds =>
      refine ⟨fun _ => Or.inr ⟨hstarts.moves, ?_⟩, nofun⟩
      have hkept := hsteady.kept o hlive
      have hkept' := hsteady.kept q hlive'
      have htype := hstarts.oldType
      have htype' := hstarts.newType
      rw [← Inode.type_of_core hkept.core] at htype
      rw [← Inode.type_of_core hkept'.core] at htype'
      refine ⟨⟨found, ?_, ?_⟩, ?_, fun j name hj hold hnew => ?_⟩
      · rw [hsound.lookup_find hlive hstarts.oldType hstarts.oldNameOk, hstarts.find]
        rfl
      · rw [hsound'.lookup_find hkept'.live htype' hstarts.newNameOk, hfinds, moveFind_self]
        rfl
      · rw [hsound'.lookup_find hkept.live htype hstarts.oldNameOk, hfinds,
          moveFind_old _ found hstarts.moves]
        rfl
      · refine hsound.lookup_congr hsound' hsteady hj ?_
        rw [hfinds, moveFind_of_ne _ found hold hnew]
  | restored found hstarts hroom hback hsteady hfinds =>
      refine ⟨nofun, fun _ _ => Or.inr ⟨?_, fun j name hj => ?_⟩⟩
      · rintro ⟨-, -, -, hno⟩
        exact hno hback
      · exact hsound.lookup_congr hsound' hsteady hj (by rw [hfinds])
  | lost found hstarts hroom hback hsteady hfinds =>
      refine ⟨nofun, fun _ _ => Or.inl ⟨⟨found, hstarts, hroom, hback⟩, ?_⟩⟩
      have hkept := hsteady.kept o hlive
      have htype := hstarts.oldType
      rw [← Inode.type_of_core hkept.core] at htype
      refine ⟨⟨found, ?_⟩, ?_, fun j name hj hold => ?_⟩
      · rw [hsound.lookup_find hlive hstarts.oldType hstarts.oldNameOk, hstarts.find]
        rfl
      · rw [hsound'.lookup_find hkept.live htype hstarts.oldNameOk, hfinds, Function.update_self,
          Function.update_self]
        rfl
      · refine hsound.lookup_congr hsound' hsteady hj ?_
        rw [hfinds]
        by_cases hjo : j = o
        · subst hjo
          rw [Function.update_self, Function.update_of_ne (fun heq => hold ⟨rfl, heq⟩)]
        · rw [Function.update_of_ne hjo]

/-- A rename through the kernel works on the volume. -/
theorem nyfsRename_run {s : Drivers (NyfsState D)} {a b vol o q : Nat} (ha : VnodeOf s a vol o)
    (hb : VnodeOf s b vol q) (oldName newName : List UInt8) :
    nyfsRename a oldName (some b) newName s =
      onVolume vol (renameNode o oldName q newName s.fs.cred) s := by
  rw [nyfsRename]
  dsimp only
  rw [Eff.bind_ok ha.run]
  dsimp only
  rw [Eff.bind_ok hb.run]
  dsimp only
  rw [if_neg (not_not.mpr rfl)]
  rfl

/-- A rename through the kernel is the rename on the volume. -/
theorem nyfsRename_eq {s : Drivers (NyfsState D)} {a b vol o q : Nat} (ha : VnodeOf s a vol o)
    (hb : VnodeOf s b vol q) (oldName newName : List UInt8) :
    (nyfsRename a oldName (some b) newName s).1 =
        (renameNode o oldName q newName s.fs.cred (s.fs.volumes vol)).1 ∧
      (nyfsRename a oldName (some b) newName s).2.fs.volumes vol =
        (renameNode o oldName q newName s.fs.cred (s.fs.volumes vol)).2 := by
  rw [nyfsRename_run ha hb oldName newName]
  exact ⟨rfl, Function.update_self _ _ _⟩

/-- A rename moves the name, or fails and leaves every name as it was, unless there is room neither
for the new name nor to put the old one back: then exactly the old name is lost. -/
theorem rename_atomic_unless_full (hsmall : p.Small) (h : Reachable anyRequest p d v) {o q : Nat}
    (ho : Found v o) (hq : Found v q) (oldName newName : List UInt8) (cred : Cred) :
    ∃ nodes, Sound p.layout v nodes ∧
      ((renameNode o oldName q newName cred v).1 = .ok () →
        (o = q ∧ oldName = newName ∧ SameNames v (renameNode o oldName q newName cred v).2) ∨
          (¬(o = q ∧ oldName = newName) ∧
            NameMoved v (renameNode o oldName q newName cred v).2 o oldName q newName)) ∧
      (∀ e, (renameNode o oldName q newName cred v).1 = .error e →
        (RenameLoses p.layout v.view nodes o oldName q newName cred ∧
            NameLost v (renameNode o oldName q newName cred v).2 o oldName) ∨
          (¬RenameLoses p.layout v.view nodes o oldName q newName cred ∧
            SameNames v (renameNode o oldName q newName cred v).2)) ∧
      (∀ (s : Drivers (NyfsState D)) a b vol, VnodeOf s a vol o → VnodeOf s b vol q →
        s.fs.volumes vol = v → s.fs.cred = cred →
        (nyfsRename a oldName (some b) newName s).1 = (renameNode o oldName q newName cred v).1 ∧
          (nyfsRename a oldName (some b) newName s).2.fs.volumes vol =
            (renameNode o oldName q newName cred v).2) := by
  obtain ⟨nodes, hsound⟩ := h.inventory hsmall
  have hinodes : ∀ j ∈ (Request.rename o oldName q newName cred).inodes, Found v j := by
    intro j hj
    rcases List.mem_pair.mp hj with rfl | rfl
    · exact ho
    · exact hq
  obtain ⟨nodes', hsound', heffect⟩ := hsound.exec (.rename o oldName q newName cred) trivial hinodes
  change Sound _ (renameNode o oldName q newName cred v).2 nodes' at hsound'
  change Effect _ _ nodes (renameNode o oldName q newName cred v).2.view nodes' _
    (renameNode o oldName q newName cred v).1 at heffect
  have hkernel : ∀ (s : Drivers (NyfsState D)) a b vol, VnodeOf s a vol o → VnodeOf s b vol q →
      s.fs.volumes vol = v → s.fs.cred = cred →
      (nyfsRename a oldName (some b) newName s).1 = (renameNode o oldName q newName cred v).1 ∧
        (nyfsRename a oldName (some b) newName s).2.fs.volumes vol =
          (renameNode o oldName q newName cred v).2 := by
    rintro s a b vol ha hb rfl rfl
    exact nyfsRename_eq ha hb oldName newName
  generalize renameNode o oldName q newName cred v = run at hsound' heffect hkernel ⊢
  cases heffect with
  | rename hout =>
      obtain ⟨hok, herr⟩ := hout.names hsound hsound' ho hq
      exact ⟨nodes, hsound, hok, herr, hkernel⟩

theorem rename_atomic_unless_full_small : ∃ v : Volume MemoryDisk,
    Reachable anyRequest (tinyParams 114) ⟨fun _ => 0⟩ v ∧
      ((renameNode nyfsRootIno [97] nyfsRootIno [98] ⟨0, 0⟩ v).1 = .ok () →
        NameMoved v (renameNode nyfsRootIno [97] nyfsRootIno [98] ⟨0, 0⟩ v).2 nyfsRootIno [97]
          nyfsRootIno [98]) := by
  have hsmall : (tinyParams 114).Small := ⟨by decide, by decide⟩
  have hname : NameOk [97] := nameOk_a
  obtain ⟨v, nodes, hreach, -, -⟩ := tiny_file (D := MemoryDisk) anyRequest (Or.inl rfl)
    ⟨fun _ => 0⟩ hname (fun _ => trivial)
  obtain ⟨nodes', -, hok, -, -⟩ := rename_atomic_unless_full hsmall hreach Found.root Found.root [97]
    [98] ⟨0, 0⟩
  refine ⟨v, hreach, fun hrun => ?_⟩
  rcases hok hrun with ⟨-, hsame, -⟩ | ⟨-, hmoved⟩
  · exact absurd hsame (by decide)
  · exact hmoved

/-- On a volume without a free block a long name in the root directory has no room for a second
time. -/
theorem OneFile.rename_loses (h : OneFile (tinyParams 118).layout V nodes (longName 97)) :
    RenameLoses (tinyParams 118).layout V nodes nyfsRootIno (longName 97) nyfsRootIno (longName 98)
      ⟨0, 0⟩ := by
  have hne : longName 98 ≠ longName 97 := by decide
  obtain ⟨d, ls, t, hplan, hbits⟩ := h.bits
  have hfirst : (planOne (tinyParams 118).layout (metadataBits (tinyParams 118).layout) none).map
      (fun q => q.1 :: q.2.1) = some [62, 63] := by decide +kernel
  rw [hplan] at hfirst
  rw [show d :: ls = [62, 63] from Option.some.inj hfirst] at hbits
  have hfull : firstClear V.blockBit (tinyParams 118).layout.totalBlocks 0 = none := by
    rw [hbits]
    decide +kernel
  have hroom : ∀ byte, ¬(nodes nyfsRootIno).HasRoom (tinyParams 118).layout V (longName byte) := by
    rintro byte (hfits | hplan)
    · rw [h.rootCapacity, h.rootFree, length_longName, length_longName] at hfits
      exact absurd hfits (by decide)
    · rw [planOne, hfull, Option.bind_none] at hplan
      exact hplan rfl
  refine ⟨(2, nyfsDirentTypeFile), ⟨h.rootType, h.rootType, Or.inl rfl, Or.inl rfl, longName_ok 97,
    ?_, ?_, ?_, longName_ok 98, ?_⟩, hroom 98, hroom 97⟩
  · rw [h.find, Function.update_self]
  · rintro ⟨-, heq⟩
    exact hne heq.symm
  · rintro ⟨htype, -⟩
    exact absurd htype (by decide)
  · rw [h.find, Function.update_of_ne hne]

/-- A rename fails on a full volume, and the file has no name any more. -/
theorem failed_rename_loses_name : ∃ v : Volume MemoryDisk,
    Reachable anyRequest (tinyParams 118) ⟨fun _ => 0⟩ v ∧
      (∃ e, (renameNode nyfsRootIno (longName 97) nyfsRootIno (longName 98) ⟨0, 0⟩ v).1 = .error e) ∧
      (∃ found, (lookupName nyfsRootIno (longName 97) v).1 = .ok found) ∧
      (lookupName nyfsRootIno (longName 97)
        (renameNode nyfsRootIno (longName 97) nyfsRootIno (longName 98) ⟨0, 0⟩ v).2).1 =
          .error (.status .NnotFound) := by
  obtain ⟨v, nodes, hreach, hsound, hfile⟩ := tiny_file (D := MemoryDisk) anyRequest
    (Or.inr rfl) ⟨fun _ => 0⟩ (longName_ok 97) (fun _ => trivial)
  have hloses := hfile.rename_loses
  obtain ⟨nodes', hsound', heffect⟩ := hsound.exec
    (.rename nyfsRootIno (longName 97) nyfsRootIno (longName 98) ⟨0, 0⟩) trivial
    (fun j hj => by
      rcases List.mem_pair.mp hj with rfl | rfl
      · exact Found.root
      · exact Found.root)
  refine ⟨v, hreach, ?_⟩
  change Sound _ (renameNode nyfsRootIno (longName 97) nyfsRootIno (longName 98) ⟨0, 0⟩ v).2 nodes'
    at hsound'
  change Effect _ _ nodes
    (renameNode nyfsRootIno (longName 97) nyfsRootIno (longName 98) ⟨0, 0⟩ v).2.view nodes' _
    (renameNode nyfsRootIno (longName 97) nyfsRootIno (longName 98) ⟨0, 0⟩ v).1 at heffect
  generalize renameNode nyfsRootIno (longName 97) nyfsRootIno (longName 98) ⟨0, 0⟩ v = run
    at hsound' heffect ⊢
  obtain ⟨r, w⟩ := run
  dsimp only at hsound' heffect ⊢
  cases heffect with
  | rename hout =>
      obtain ⟨-, herr⟩ := hout.names hsound hsound' Found.root Found.root
      cases r with
      | ok u =>
          obtain ⟨found, hstarts, hroom, -⟩ := hloses
          cases hout with
          | same heq => exact absurd heq hstarts.moves
          | moved _ _ hfits => exact absurd hfits hroom
      | error e =>
          rcases herr e rfl with ⟨-, hlost⟩ | ⟨hno, -⟩
          · exact ⟨⟨e, rfl⟩, hlost.present, hlost.absent⟩
          · exact absurd hloses hno

end Nyfs
end Nyxis
