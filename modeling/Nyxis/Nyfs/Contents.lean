import Nyxis.Nyfs.Runs

/-!
# The contents of files

The content of a file is its stream, cut at the size that its inode records.  Reads return parts of
it.  The size may exceed the stream, because an empty write sets it without taking blocks, and a
write behind the size shows what the blocks held before.

Main results:

- Theorem {lit}`Sound.fileRead`: reads return parts of the content.
- Theorem {lit}`Effect.data_cases`: what a request does to the data of one inode.
- Theorem {lit}`sizes_backed`: sizes stay inside the streams when empty writes do.
- Theorem {lit}`gap_reads_zero`: when the gap in front of a write reads as zeroes.
- Theorem {lit}`files_refine_bytes`: without gaps, files behave as byte strings.
-/

namespace Nyxis
namespace Nyfs

open Bitmap

variable {D : Type} [ReliableDevice D] {L : Layout} {V V' : View} {nodes nodes' : Nat → Node}
variable {v v' : Volume D} {p : MkfsParams} {d : D} {i j : Nat}

/-! ## Contents -/

/-- The content of a file: the bytes of its stream below its size. -/
def Node.content (L : Layout) (V : View) (n : Node) (x : Inode) : List UInt8 :=
  bytesAt (streamAt L V (dataBlocks n.data)) 0 (min x.size (capacity L n.data))

theorem take_drop_bytesAt (f : Nat → UInt8) (m off size : Nat) :
    ((bytesAt f 0 m).drop off).take size = bytesAt f off (min size (m - off)) := by
  by_cases hoff : off ≤ m
  · rw [drop_bytesAt f 0 hoff, Nat.zero_add]
    by_cases hsize : size ≤ m - off
    · rw [take_bytesAt f off hsize, Nat.min_eq_left hsize]
    · rw [Nat.min_eq_right (by omega), List.take_of_length_le (by rw [length_bytesAt]; omega)]
  · rw [Nat.sub_eq_zero_of_le (by omega), Nat.min_zero, bytesAt_zero, List.drop_of_length_le
      (by rw [length_bytesAt]; omega), List.take_nil]

/-- A read returns a part of the content. -/
theorem Inventory.does_inodeRead (hL : L.Valid) (h : Inventory L V nodes) (hi : Live L V i)
    (off size : Nat) :
    Does L V (inodeRead (V.inode i) off size : NyfsM D _)
      (.ok ((((nodes i).content L V (V.inode i)).drop off).take size)) V := by
  rw [Node.content, take_drop_bytesAt, inodeRead]
  split
  next hle =>
    have hzero : min size (min (V.inode i).size (capacity L (nodes i).data) - off) = 0 := by omega
    rw [hzero, bytesAt_zero]
    exact Does.pure []
  next hlt =>
    have hread := (h.holds i hi).data.readAt (D := D) hL off (min size ((V.inode i).size - off))
    have hcount : min (min size ((V.inode i).size - off)) (capacity L (nodes i).data - off) =
        min size (min (V.inode i).size (capacity L (nodes i).data) - off) := by omega
    rw [hcount] at hread
    exact hread

theorem Inventory.does_fileRead (hL : L.Valid) (h : Inventory L V nodes) (hi : Live L V i)
    (off size : Nat) :
    Does L V (fileRead i off size : NyfsM D _)
      (.ok ((((nodes i).content L V (V.inode i)).drop off).take size)) V :=
  (h.toOwned.does_readInode hL hi).bind (h.does_inodeRead hL hi off size)

/-- The host's read checks the access first. -/
theorem Inventory.does_opRead (hL : L.Valid) (h : Inventory L V nodes) (hi : Live L V i)
    (cred : Cred) (off size : Nat) :
    Does L V (opRead i cred off size : NyfsM D _)
      (if Grants V (V.inode i) cred nyfsAceReadData then
        .ok ((((nodes i).content L V (V.inode i)).drop off).take size)
      else .error (.status .Npermission)) V := by
  have haccess := (h.holds i hi).does_checkAccess (D := D) hL cred nyfsAceReadData
  refine (h.toOwned.does_readInode hL hi).bind ?_
  by_cases hgrants : Grants V (V.inode i) cred nyfsAceReadData
  · rw [if_pos hgrants] at haccess ⊢
    exact haccess.bind (h.does_inodeRead hL hi off size)
  · rw [if_neg hgrants] at haccess ⊢
    exact haccess.bind_error

/-- A read returns a part of the content. -/
theorem Sound.fileRead (h : Sound L v nodes) (hi : Live L v.view i) (off size : Nat) :
    (Nyfs.fileRead i off size v).1 =
      .ok ((((nodes i).content L v.view (v.view.inode i)).drop off).take size) := by
  obtain ⟨v', hrun, -⟩ := (h.inventory.does_fileRead (D := D) h.valid hi off size).run h.valid
    h.mounted rfl
  rw [hrun]

/-- The number of blocks of a file. -/
theorem Sound.totalBlocks (h : Sound L v nodes) (hi : Live L v.view i) :
    (extentTotalBlocks (v.view.inode i).dataExtentRoot v).1 =
      .ok (dataBlocks (nodes i).data).length := by
  obtain ⟨v', hrun, -⟩ := ((h.inventory.holds i hi).data.totalBlocks (D := D) h.valid).run h.valid
    h.mounted rfl
  rw [hrun]

/-- The data of an inode is the same in both views. -/
structure SameData (L : Layout) (V : View) (nodes : Nat → Node) (V' : View) (nodes' : Nat → Node)
    (j : Nat) : Prop where
  live : Live L V j
  data : (nodes' j).data = (nodes j).data
  block : ∀ b ∈ chainBlocks (nodes j).data, V'.block b = V.block b

theorem SameData.refl (hj : Live L V j) : SameData L V nodes V nodes j :=
  ⟨hj, rfl, fun _ _ => rfl⟩

theorem Inode.size_of_core {x y : Inode} (h : y.core = x.core) : y.size = x.size :=
  show y.core.size = x.core.size from congrArg Inode.size h

theorem Kept.sameData (hj : Live L V j) (h : Kept L V nodes V' nodes' j) :
    SameData L V nodes V' nodes' j :=
  ⟨hj, h.data, fun b hb => h.block b (List.mem_append_left _ hb)⟩

/-- A file whose size alone has changed is cut. -/
theorem SameData.content_take (h : SameData L V nodes V' nodes' j)
    (hle : (V'.inode j).size ≤ (V.inode j).size) :
    (nodes' j).content L V' (V'.inode j) =
      ((nodes j).content L V (V.inode j)).take (V'.inode j).size := by
  have hcut := take_drop_bytesAt (streamAt L V (dataBlocks (nodes j).data))
    (min (V.inode j).size (capacity L (nodes j).data)) 0 (V'.inode j).size
  rw [List.drop_zero] at hcut
  rw [Node.content, Node.content, hcut, h.data, show min (V'.inode j).size
      (min (V.inode j).size (capacity L (nodes j).data) - 0) =
        min (V'.inode j).size (capacity L (nodes j).data) by omega]
  refine bytesAt_congr (fun o _ ho => streamAt_congr_of_lt (fun b hb =>
    h.block b (List.mem_append_right _ hb)) ?_)
  change o < capacity L (nodes j).data
  omega

theorem Node.length_content (L : Layout) (V : View) (n : Node) (x : Inode) :
    (n.content L V x).length = min x.size (capacity L n.data) :=
  length_bytesAt _ _ _

theorem SameData.content_eq (h : SameData L V nodes V' nodes' j)
    (hsize : (V'.inode j).size = (V.inode j).size) :
    (nodes' j).content L V' (V'.inode j) = (nodes j).content L V (V.inode j) := by
  rw [h.content_take (le_of_eq hsize), hsize, List.take_of_length_le]
  rw [Node.length_content]
  exact Nat.min_le_left _ _

/-! ## One request and the data of one inode -/

/-- What a request may do to the data of an inode that is live afterwards. -/
inductive DataCase (L : Layout) (V : View) (nodes : Nat → Node) (V' : View) (nodes' : Nat → Node)
    (j : Nat) : Request → Prop
  | same (q : Request) (h : SameData L V nodes V' nodes' j)
      (hsize : (V'.inode j).size = (V.inode j).size) : DataCase L V nodes V' nodes' j q
  | new (q : Request) (hbit : V.inodeBit j = false) (hdata : (nodes' j).data = [])
      (hsize : (V'.inode j).size = 0) : DataCase L V nodes V' nodes' j q
  | cut (cred : Cred) (size : Nat) (h : SameData L V nodes V' nodes' j)
      (hsize : (V'.inode j).size = size) (hle : size ≤ (V.inode j).size) :
      DataCase L V nodes V' nodes' j (.truncate j cred size)
  | write (cred : Cred) (off : Nat) (bytes : List UInt8) (r : Except Stop Nat) (hj : Live L V j)
      (hout : FileWrite L V nodes j off bytes V' nodes' r) :
      DataCase L V nodes V' nodes' j (.write j cred off bytes)
  | writeFile (off : Nat) (bytes : List UInt8) (r : Except Stop Nat) (hj : Live L V j)
      (hout : FileWrite L V nodes j off bytes V' nodes' r) :
      DataCase L V nodes V' nodes' j (.writeFile j off bytes)

theorem DataCase.refl (q : Request) (hj : Live L V j) : DataCase L V nodes V nodes j q :=
  DataCase.same q (SameData.refl hj) rfl

theorem Kept.dataCase (q : Request) (hj : Live L V j) (h : Kept L V nodes V' nodes' j) :
    DataCase L V nodes V' nodes' j q :=
  DataCase.same q (h.sameData hj) (Inode.size_of_core h.core)

theorem Touches.dataCase (q : Request) {i : Nat} (h : Touches L V nodes i V' nodes')
    (hj : Live L V' j) (hne : j ≠ i) : DataCase L V nodes V' nodes' j q := by
  have hlive := (live_congr h.inodeBit).mp hj
  exact (h.others j hlive hne).dataCase q hlive

theorem Steady.dataCase (q : Request) (h : Steady L V nodes V' nodes') (hj : Live L V' j) :
    DataCase L V nodes V' nodes' j q := by
  have hlive := (live_congr h.inodeBit).mp hj
  exact (h.kept j hlive).dataCase q hlive

/-- The inode alone is written. -/
theorem SameData.written (x : Inode) (hj : Live L V j) :
    SameData L V nodes (V.writeInode j x) nodes j :=
  ⟨hj, rfl, fun _ _ => rfl⟩

theorem size_writeInode (V : View) (j : Nat) (x : Inode) :
    ((V.writeInode j (sealInode j x)).inode j).size = x.size := by
  change (Function.update V.inode j (sealInode j x) j).size = _
  rw [Function.update_self]
  rfl

/-- One request and the data of one inode. -/
theorem Effect.data_cases {q : Request} {r : Except Stop Unit}
    (h : Effect L V nodes V' nodes' q r) (hj : Live L V' j) :
    DataCase L V nodes V' nodes' j q := by
  cases h with
  | make hout =>
      cases hout with
      | made i hstarts hmade hfits hplace =>
          by_cases hne : j = i
          · subst hne
            have hsize := congrArg (fun w : Inode => w.size) hmade.attributes
            exact DataCase.new _ (firstClear_some hmade.first).2.2 hmade.data hsize
          · have hset := hj.set
            rw [hmade.inodeBit, Function.update_of_ne hne] at hset
            have hlive : Live L V j := ⟨hj.ne_zero, hj.lt, hset⟩
            exact (hmade.kept j hlive).dataCase _ hlive
      | failed e leaked hsame _ _ _ _ _ =>
          have hlive := (live_congr hsame.inodeBit).mp hj
          exact (hsame.kept j hlive).dataCase _ hlive
  | remove hout =>
      cases hout with
      | failed e hview hnodes =>
          subst hview hnodes
          exact DataCase.refl _ hj
      | removed t type hfind ht hbit hkept _ _ =>
          have hset := hj.set
          have hne : j ≠ t := by
            rintro rfl
            rw [hbit, Function.update_self] at hset
            cases hset
          rw [hbit, Function.update_of_ne hne] at hset
          have hlive : Live L V j := ⟨hj.ne_zero, hj.lt, hset⟩
          exact (hkept j hlive hne).dataCase _ hlive
  | rename hout =>
      cases hout with
      | failed e _ hview hnodes =>
          subst hview hnodes
          exact DataCase.refl _ hj
      | same _ _ _ hview hnodes =>
          subst hview hnodes
          exact DataCase.refl _ hj
      | moved _ _ _ hsteady _ => exact hsteady.dataCase _ hj
      | restored _ _ _ _ hsteady _ => exact hsteady.dataCase _ hj
      | lost _ _ _ _ hsteady _ => exact hsteady.dataCase _ hj
  | denied _ hview hnodes =>
      subst hview hnodes
      exact DataCase.refl _ hj
  | @write ino off cred bytes r _ htouches hout =>
      by_cases hne : j = ino
      · subst hne
        exact DataCase.write cred off bytes r ((live_congr htouches.inodeBit).mp hj) hout
      · exact htouches.dataCase _ hj hne
  | @writeFile ino off bytes r htouches hout =>
      by_cases hne : j = ino
      · subst hne
        exact DataCase.writeFile off bytes r ((live_congr htouches.inodeBit).mp hj) hout
      · exact htouches.dataCase _ hj hne
  | @truncate ino size cred _ htouches hnodes hout =>
      subst hnodes
      by_cases hne : j = ino
      · subst hne
        rcases hout with ⟨e, -, rfl, -⟩ | ⟨-, hle, rfl⟩
        · exact DataCase.refl _ hj
        · exact DataCase.cut cred size
            (SameData.written _ ((live_congr htouches.inodeBit).mp hj)) (size_writeInode ..) hle
      · exact htouches.dataCase _ hj hne
  | @setattr ino cred change _ htouches hnodes hout =>
      subst hnodes
      by_cases hne : j = ino
      · subst hne
        rcases hout with ⟨e, -, rfl, -⟩ | ⟨-, rfl, -⟩
        · exact DataCase.refl _ hj
        · exact DataCase.same _ (SameData.written _ ((live_congr htouches.inodeBit).mp hj))
            (size_writeInode ..)
      · exact htouches.dataCase _ hj hne
  | @putAcl ino aces _ htouches hdata hout =>
      by_cases hne : j = ino
      · subst hne
        have hlive := (live_congr htouches.inodeBit).mp hj
        rcases hout with ⟨e, -, rfl⟩ | ⟨-, hcore, hblock⟩
        · exact DataCase.same _ ⟨hlive, hdata, fun _ _ => rfl⟩ rfl
        · exact DataCase.same _ ⟨hlive, hdata, hblock⟩ (show (V'.inode j).bare.core.size =
            (V.inode j).bare.core.size from congrArg Inode.size hcore)
      · exact htouches.dataCase _ hj hne

/-! ## Sizes -/

/-- The sizes stay inside the streams. -/
def Backed (L : Layout) (V : View) (nodes : Nat → Node) : Prop :=
  ∀ j, Live L V j → (V.inode j).size ≤ capacity L (nodes j).data

theorem capacity_mono {segs segs' : List Segment} (h : dataBlocks segs <+: dataBlocks segs') :
    capacity L segs ≤ capacity L segs' :=
  Nat.mul_le_mul_right _ h.length_le

/-- A write keeps the size inside the stream, unless it is empty and starts behind it. -/
theorem FileWrite.size_le {off : Nat} {bytes : List UInt8} {r : Except Stop Nat}
    (h : FileWrite L V nodes i off bytes V' nodes' r)
    (hback : (V.inode i).size ≤ capacity L (nodes i).data)
    (hempty : bytes = [] → off ≤ capacity L (nodes i).data) :
    (V'.inode i).size ≤ capacity L (nodes' i).data := by
  cases h with
  | written ds root hplan hdata hinode hbits hstream hle =>
      have hmono : capacity L (nodes i).data ≤ capacity L (nodes' i).data :=
        capacity_mono ⟨_, hdata.symm⟩
      have hmod : (off + bytes.length) % 2 ^ 64 ≤ off + bytes.length := Nat.mod_le _ _
      rw [hinode]
      change max (V.inode i).size ((off + bytes.length) % 2 ^ 64) ≤ _
      by_cases hne : bytes = []
      · have hoff := hempty hne
        rw [hne, List.length_nil] at hmod ⊢
        omega
      · have hend := hle hne
        omega
  | full taken hne hplan htaken hsame hinode hbits hfresh hgrown hstream =>
      rw [hinode]
      exact le_trans hback (capacity_mono hgrown)
  | wrapped ds hne hplan hwrap hlt hinode hbits hfresh hgrown hkept hstream =>
      rw [hinode]
      exact le_trans hback (capacity_mono hgrown)

/-- The number of bytes in the blocks of a file. -/
def streamBytes (v : Volume D) (ino : Nat) : Nat :=
  match (extentTotalBlocks (v.view.inode ino).dataExtentRoot v).1 with
  | .ok blocks => blocks * v.blockSize
  | .error _ => 0

theorem Sound.streamBytes_eq (h : Sound L v nodes) (hi : Live L v.view i) :
    streamBytes v i = capacity L (nodes i).data := by
  rw [streamBytes, h.totalBlocks hi]
  change _ * v.blockSize = _
  rw [h.mounted.blockSize]
  rfl

/-- Empty writes start inside the blocks of their file. -/
def emptyWritesInside (v : Volume D) : Request → Prop
  | .write ino _ offset bytes => bytes = [] → offset ≤ streamBytes v ino
  | .writeFile ino offset bytes => bytes = [] → offset ≤ streamBytes v ino
  | _ => True

/-- One request keeps the sizes inside the streams. -/
theorem Sound.backed_exec (h : Sound L v nodes) (hback : Backed L v.view nodes) {q : Request}
    (hallowed : emptyWritesInside v q) {r : Except Stop Unit}
    (heffect : Effect L v.view nodes V' nodes' q r) : Backed L V' nodes' := by
  intro j hj
  cases heffect.data_cases hj with
  | same _ hsame hsize =>
      rw [hsame.data, hsize]
      exact hback j hsame.live
  | cut cred size hsame hsize hle =>
      rw [hsame.data, hsize]
      exact le_trans hle (hback j hsame.live)
  | new _ _ _ hsize =>
      rw [hsize]
      exact Nat.zero_le _
  | write cred off bytes _ hlive hout =>
      refine hout.size_le (hback j hlive) (fun hnil => ?_)
      rw [← h.streamBytes_eq hlive]
      exact hallowed hnil
  | writeFile off bytes _ hlive hout =>
      refine hout.size_le (hback j hlive) (fun hnil => ?_)
      rw [← h.streamBytes_eq hlive]
      exact hallowed hnil

/-- A format leaves the sizes inside the streams. -/
theorem Fresh.backed {image : Nat → UInt8} (h : Fresh L image V nodes) : Backed L V nodes := by
  intro j hj
  have hset := hj.set
  rw [h.inodeBit] at hset
  have hroot : j = nyfsRootIno := by
    by_contra hne
    rw [Function.update_of_ne hne, Function.update_of_ne hj.ne_zero] at hset
    cases hset
  rw [hroot, h.root]
  exact Nat.zero_le _

/-- In a run whose empty writes start inside the blocks of their files, the sizes stay inside the
streams. -/
theorem Reachable.backed (hsmall : p.Small) (h : Reachable emptyWritesInside p d v) :
    ∃ nodes, Sound p.layout v nodes ∧ Backed p.layout v.view nodes := by
  induction h with
  | opened hformat hopen =>
      obtain ⟨hL, hmounted, nodes, hfresh⟩ := formatted hsmall hformat hopen
      exact ⟨nodes, ⟨hL, hmounted, hfresh.inventory⟩, hfresh.backed⟩
  | step _ q hfits hfound hallowed ih =>
      obtain ⟨nodes, hsound, hback⟩ := ih
      obtain ⟨nodes', hsound', heffect⟩ := hsound.exec q hfits hfound
      exact ⟨nodes', hsound', hsound.backed_exec hback hallowed heffect⟩

/-- In a run whose empty writes start inside the blocks of their files, every byte below a size
is in a block of the file, and reads are cut at the size only. -/
theorem sizes_backed (hsmall : p.Small) (h : Reachable emptyWritesInside p d v)
    (hi : Live v.sb.layout v.view i) :
    (v.view.inode i).size ≤ streamBytes v i ∧
      ∀ off size, off < (v.view.inode i).size → ∃ bytes,
        (fileRead i off size v).1 = .ok bytes ∧
          bytes.length = min size ((v.view.inode i).size - off) := by
  obtain ⟨nodes, hsound, hback⟩ := h.backed hsmall
  rw [show v.sb.layout = p.layout from hsound.mounted.layout] at hi
  have hle := hback i hi
  rw [hsound.streamBytes_eq hi]
  refine ⟨hle, fun off size _ => ⟨_, hsound.fileRead hi off size, ?_⟩⟩
  rw [List.length_take, List.length_drop, Node.length_content, Nat.min_eq_left hle]

theorem sizes_backed_small : ∃ v : Volume MemoryDisk,
    (tinyParams 114).Small ∧ Reachable emptyWritesInside (tinyParams 114) ⟨fun _ => 0⟩ v ∧
      Live v.sb.layout v.view 2 ∧ (v.view.inode 2).size ≤ streamBytes v 2 ∧
      ∀ off size, off < (v.view.inode 2).size → ∃ bytes,
        (fileRead 2 off size v).1 = .ok bytes ∧
          bytes.length = min size ((v.view.inode 2).size - off) := by
  have hsmall : (tinyParams 114).Small := ⟨by decide, by decide⟩
  obtain ⟨v, nodes, hreach, hsound, hfile⟩ := tiny_file (D := MemoryDisk) emptyWritesInside
    (Or.inl rfl) ⟨fun _ => 0⟩ nameOk_a (fun _ => trivial)
  have hlive : Live v.sb.layout v.view 2 := by
    rw [show v.sb.layout = (tinyParams 114).layout from hsound.mounted.layout]
    exact hfile.live
  exact ⟨v, hsmall, hreach, hlive, sizes_backed hsmall hreach hlive⟩

/-- An empty write at offset 5 of an empty file sets the size to 5, and no block backs it. -/
theorem empty_write_unbacked : ∃ v : Volume MemoryDisk,
    Reachable anyRequest (tinyParams 114) ⟨fun _ => 0⟩ v ∧ Live v.sb.layout v.view 2 ∧
      (v.view.inode 2).size = 5 ∧ streamBytes v 2 = 0 ∧ (fileRead 2 0 5 v).1 = .ok [] := by
  obtain ⟨v, nodes, hreach, hsound, hfile⟩ := tiny_file (D := MemoryDisk) anyRequest
    (Or.inl rfl) ⟨fun _ => 0⟩ nameOk_a (fun _ => trivial)
  have hfound := (hfile.inRoot ⟨by decide, by decide⟩).found hsound
  have hfits : (Request.write 2 ⟨0, 0⟩ 5 []).Fits := by
    change 5 < 2 ^ 64
    decide
  have honly : ∀ i ∈ (Request.write 2 ⟨0, 0⟩ 5 []).inodes, Found v i := by
    intro i hi
    rw [List.mem_singleton.mp hi]
    exact hfound
  have hstep := Reachable.step hreach (.write 2 ⟨0, 0⟩ 5 []) hfits honly trivial
  obtain ⟨nodes', hsound', heffect⟩ := hsound.exec (.write 2 ⟨0, 0⟩ 5 []) hfits honly
  generalize (Request.write 2 ⟨0, 0⟩ 5 []).exec v = run at hstep hsound' heffect
  obtain ⟨r, w⟩ := run
  dsimp only at hstep hsound' heffect
  have hfacts : Live (tinyParams 114).layout w.view 2 ∧ (w.view.inode 2).size = 5 ∧
      dataBlocks (nodes' 2).data = [] := by
    cases heffect with
    | denied hno => exact absurd (Or.inl rfl) hno
    | write _ htouches hout =>
        refine ⟨(live_congr htouches.inodeBit).mpr hfile.live, ?_⟩
        cases hout with
        | written ds root hplan hdata hinode _ _ _ =>
            rw [if_pos rfl] at hplan
            cases hplan
            refine ⟨?_, ?_⟩
            · rw [hinode]
              change max (v.view.inode 2).size ((5 + 0) % 2 ^ 64) = 5
              rw [hfile.size]
              rfl
            · rw [hdata, hfile.data]
              rfl
        | full _ hne => exact absurd rfl hne
        | wrapped _ hne => exact absurd rfl hne
  obtain ⟨hlive, hsize, hdata⟩ := hfacts
  refine ⟨w, hstep, ?_, hsize, ?_, ?_⟩
  · rw [show w.sb.layout = (tinyParams 114).layout from hsound'.mounted.layout]
    exact hlive
  · rw [hsound'.streamBytes_eq hlive, capacity, hdata]
    rfl
  · rw [hsound'.fileRead hlive, Node.content, capacity, hdata, List.length_nil, Nat.zero_mul,
      Nat.min_zero]
    rfl

/-! ## Gaps -/

/-- The two calls that write. -/
def Request.Writes (q : Request) (ino offset : Nat) (bytes : List UInt8) : Prop :=
  (∃ cred, q = .write ino cred offset bytes) ∨ q = .writeFile ino offset bytes

/-- A write that succeeds has written everything. -/
theorem Effect.written_of_ok {q : Request} {off : Nat} {bytes : List UInt8}
    (h : Effect L V nodes V' nodes' q (.ok ())) (hq : q.Writes i off bytes) :
    Touches L V nodes i V' nodes' ∧
      FileWrite L V nodes i off bytes V' nodes' (.ok bytes.length) := by
  have hlength : ∀ {r : Except Stop Nat}, FileWrite L V nodes i off bytes V' nodes' r →
      r.map (fun _ => ()) = .ok () →
      FileWrite L V nodes i off bytes V' nodes' (.ok bytes.length) := by
    intro r hout hr
    cases hout with
    | written ds root hplan hdata hinode hbits hstream hle hperm hacl =>
        exact FileWrite.written ds root hplan hdata hinode hbits hstream hle hperm hacl
    | full => cases hr
    | wrapped => cases hr
  generalize hr : (Except.ok () : Except Stop Unit) = r at h
  rcases hq with ⟨cred, rfl⟩ | rfl
  · cases h with
    | denied => cases hr
    | write _ htouches hout => exact ⟨htouches, hlength hout hr.symm⟩
  · cases h with
    | writeFile htouches hout => exact ⟨htouches, hlength hout hr.symm⟩

/-- The byte that a read of length one returns. -/
theorem Sound.fileRead_one (h : Sound L v nodes) (hi : Live L v.view i) (pos : Nat) (b : UInt8) :
    (Nyfs.fileRead i pos 1 v).1 = .ok [b] ↔
      pos < (v.view.inode i).size ∧ pos < capacity L (nodes i).data ∧
        streamAt L v.view (dataBlocks (nodes i).data) pos = b := by
  rw [h.fileRead hi, Node.content, take_drop_bytesAt]
  by_cases hlt : pos < min (v.view.inode i).size (capacity L (nodes i).data)
  · rw [Nat.min_eq_left (show 1 ≤ min (v.view.inode i).size (capacity L (nodes i).data) - pos by omega)]
    change (Except.ok [streamAt L v.view (dataBlocks (nodes i).data) (pos + 0)] :
      Except Stop (List UInt8)) = _ ↔ _
    rw [Nat.add_zero]
    constructor
    · intro heq
      cases heq
      exact ⟨by omega, by omega, rfl⟩
    · rintro ⟨-, -, rfl⟩
      rfl
  · rw [Nat.sub_eq_zero_of_le (Nat.not_lt.mp hlt), Nat.min_zero, bytesAt_zero]
    constructor
    · intro heq
      cases heq
    · intro hyes
      omega

/-- The gap between the size of a file and the offset of a write holds zeroes on the device, in the
blocks that the file has and in those that the write appends. -/
def GapZero (L : Layout) (V : View) (n : Node) (size off : Nat) (bytes : List UInt8) : Prop :=
  ∃ ds, planMany L (if bytes = [] then 0 else growthNeed L n.data off bytes.length) V.blockBit
      (tailOf n.data) = some ds ∧
    ∀ pos, size ≤ pos → pos < off →
      pos < ((dataBlocks n.data).length + ds.length) * L.blockSize ∧
        streamAt L V (dataBlocks n.data ++ ds.map Prod.fst) pos = 0

/-- After a write behind the size of a file the gap reads as zeroes exactly when the device held
zeroes there. -/
theorem gap_reads_zero (hsmall : p.Small) (h : Reachable anyRequest p d v) (hfound : Found v i)
    {q : Request} {off : Nat} {bytes : List UInt8} (hq : q.Writes i off bytes) (hfits : q.Fits)
    (hgap : (v.view.inode i).size < off) (hok : (q.exec v).1 = .ok ()) :
    ∃ nodes, Sound p.layout v nodes ∧
      ((∀ pos, (v.view.inode i).size ≤ pos → pos < off →
          (fileRead i pos 1 (q.exec v).2).1 = .ok [0]) ↔
        GapZero p.layout v.view (nodes i) (v.view.inode i).size off bytes) := by
  obtain ⟨nodes, hsound⟩ := h.inventory hsmall
  refine ⟨nodes, hsound, ?_⟩
  have hlive := hfound.live hsound.valid hsound.mounted hsound.inventory
  have honly : ∀ j ∈ q.inodes, Found v j := by
    intro j hj
    rcases hq with ⟨cred, rfl⟩ | rfl
    · rw [List.mem_singleton.mp hj]
      exact hfound
    · rw [List.mem_singleton.mp hj]
      exact hfound
  have hofflt : off < 2 ^ 64 := by
    rcases hq with ⟨cred, rfl⟩ | rfl
    · exact hfits
    · exact hfits
  obtain ⟨nodes', hsound', heffect⟩ := hsound.exec q hfits honly
  rw [hok] at heffect
  obtain ⟨htouches, hout⟩ := heffect.written_of_ok hq
  have hlive' : Live p.layout (q.exec v).2.view i := (live_congr htouches.inodeBit).mpr hlive
  have hcap := (hsound'.inventory.holds i hlive').data.capacity_lt hsound.valid
  generalize hr : (Except.ok bytes.length : Except Stop Nat) = r at hout
  cases hout with
  | full => cases hr
  | wrapped => cases hr
  | written ds root hplan hdata hinode hbits hstream hle =>
      have hlen : (dataBlocks (nodes' i).data).length =
          (dataBlocks (nodes i).data).length + ds.length := by
        rw [hdata, List.length_append, List.length_map]
      have hsize : off ≤ ((q.exec v).2.view.inode i).size := by
        rw [hinode]
        change off ≤ max _ ((off + bytes.length) % 2 ^ 64)
        by_cases hne : bytes = []
        · rw [hne, List.length_nil, Nat.add_zero, Nat.mod_eq_of_lt hofflt]
          exact Nat.le_max_right _ _
        · have hend := hle hne
          have hbytes := hsound.valid.bytes_lt
          rw [Nat.mod_eq_of_lt (by omega)]
          omega
      -- a byte of the gap is read from where the write has not been
      have hread : ∀ pos, pos < off → ((fileRead i pos 1 (q.exec v).2).1 = .ok [0] ↔
          pos < ((dataBlocks (nodes i).data).length + ds.length) * p.layout.blockSize ∧
            streamAt p.layout v.view (dataBlocks (nodes i).data ++ ds.map Prod.fst) pos = 0) := by
        intro pos hpos
        rw [hsound'.fileRead_one hlive', hstream, splice_of_lt _ _ hpos, capacity, hlen, hdata]
        exact and_iff_right (lt_of_lt_of_le hpos hsize)
      constructor
      · intro hzero
        exact ⟨ds, hplan, fun pos hlo hhi => (hread pos hhi).mp (hzero pos hlo hhi)⟩
      · rintro ⟨ds', hplan', hzero⟩ pos hlo hhi
        rw [hplan] at hplan'
        cases hplan'
        exact (hread pos hhi).mpr (hzero pos hlo hhi)

/-- A write of the superuser that finds its blocks succeeds. -/
theorem Sound.write_step (h : Sound L v nodes) (hfound : Found v i) (off : Nat)
    (bytes : List UInt8) {ds : List (Nat × List Nat)} (hne : bytes ≠ [])
    (hplan : planMany L (growthNeed L (nodes i).data off bytes.length) v.view.blockBit
      (tailOf (nodes i).data) = some ds)
    (hend : off + bytes.length + L.blockSize - 1 < 2 ^ 64) :
    ∃ nodes', Sound L ((Request.write i ⟨0, 0⟩ off bytes).exec v).2 nodes' ∧
      ((Request.write i ⟨0, 0⟩ off bytes).exec v).1 = .ok () ∧
      Touches L v.view nodes i ((Request.write i ⟨0, 0⟩ off bytes).exec v).2.view nodes' ∧
      dataBlocks (nodes' i).data = dataBlocks (nodes i).data ++ ds.map Prod.fst ∧
      off + bytes.length ≤ (((Request.write i ⟨0, 0⟩ off bytes).exec v).2.view.inode i).size ∧
      off + bytes.length ≤ capacity L (nodes' i).data ∧
      streamAt L ((Request.write i ⟨0, 0⟩ off bytes).exec v).2.view (dataBlocks (nodes' i).data) =
        splice (streamAt L v.view (dataBlocks (nodes' i).data)) off bytes := by
  have hsize := h.valid.blockSize_ge
  have hoff : (Request.write i ⟨0, 0⟩ off bytes).Fits := by
    change off < 2 ^ 64
    omega
  obtain ⟨nodes', hsound', heffect⟩ := h.exec (.write i ⟨0, 0⟩ off bytes) hoff
    (fun j hj => by rw [List.mem_singleton.mp hj]; exact hfound)
  refine ⟨nodes', hsound', ?_⟩
  generalize (Request.write i ⟨0, 0⟩ off bytes).exec v = run at heffect ⊢
  obtain ⟨r, w⟩ := run
  dsimp only at heffect ⊢
  cases heffect with
  | denied hno => exact absurd (Or.inl rfl) hno
  | write _ htouches hout =>
      cases hout with
      | full _ _ hnone =>
          rw [hplan] at hnone
          cases hnone
      | wrapped _ _ _ hwrap => omega
      | written ds' root hplan' hdata hinode _ hstream hle =>
          rw [if_neg hne, hplan] at hplan'
          cases hplan'
          refine ⟨rfl, htouches, hdata, ?_, hle hne, hstream⟩
          rw [hinode]
          change off + bytes.length ≤ max _ ((off + bytes.length) % 2 ^ 64)
          rw [Nat.mod_eq_of_lt (by omega)]
          exact Nat.le_max_right _ _

/-- A cut by the superuser keeps the blocks. -/
theorem Sound.truncate_step (h : Sound L v nodes) (hfound : Found v i) :
    ∃ nodes', Sound L ((Request.truncate i ⟨0, 0⟩ 0).exec v).2 nodes' ∧
      Touches L v.view nodes i ((Request.truncate i ⟨0, 0⟩ 0).exec v).2.view nodes' ∧
      nodes' = nodes ∧
      (((Request.truncate i ⟨0, 0⟩ 0).exec v).2.view.inode i).size = 0 ∧
      ((Request.truncate i ⟨0, 0⟩ 0).exec v).2.view.block = v.view.block := by
  obtain ⟨nodes', hsound', heffect⟩ := h.exec (.truncate i ⟨0, 0⟩ 0) trivial
    (fun j hj => by rw [List.mem_singleton.mp hj]; exact hfound)
  refine ⟨nodes', hsound', ?_⟩
  generalize (Request.truncate i ⟨0, 0⟩ 0).exec v = run at heffect ⊢
  obtain ⟨r, w⟩ := run
  dsimp only at heffect ⊢
  cases heffect with
  | truncate htouches hnodes hout =>
      subst hnodes
      rcases hout with ⟨e, -, -, hno⟩ | ⟨-, -, hview⟩
      · exact absurd ⟨Or.inl rfl, Nat.zero_le _⟩ hno
      · refine ⟨htouches, rfl, ?_, ?_⟩
        · rw [hview]
          change (Function.update v.view.inode i _ i).size = 0
          rw [Function.update_self]
          rfl
        · rw [hview]
          rfl

/-- A first write of at most a block finds its blocks. -/
theorem OneFile.plan {name : List UInt8} (h : OneFile (tinyParams 114).layout V nodes name)
    {off size : Nat} (hpos : 0 < size) (hend : off + size ≤ 512) :
    ∃ ds, planMany (tinyParams 114).layout (growthNeed (tinyParams 114).layout (nodes 2).data off size)
      V.blockBit (tailOf (nodes 2).data) = some ds := by
  have hneed : growthNeed (tinyParams 114).layout (nodes 2).data off size = 1 := by
    rw [growthNeed, h.data]
    change (off + size + 512 - 1) % 2 ^ 64 / 512 - 0 = 1
    omega
  have hroom : ((planOne (tinyParams 114).layout
      (mark (metadataBits (tinyParams 114).layout) [60, 61]) none).map (fun q => q.1)) =
        some 62 := by decide +kernel
  rw [hneed, planMany_one, h.bits_eq, h.data]
  obtain ⟨q, hq, -⟩ := Option.map_eq_some_iff.mp hroom
  exact ⟨_, by rw [show tailOf [] = none from rfl, hq]; rfl⟩

theorem gap_reads_zero_small : ∃ (v : Volume MemoryDisk) (nodes : Nat → Node),
    Reachable anyRequest (tinyParams 114) ⟨fun _ => 0⟩ v ∧ Found v 2 ∧
      ((Request.write 2 ⟨0, 0⟩ 1 [66]).exec v).1 = .ok () ∧
      ((∀ pos, (v.view.inode 2).size ≤ pos → pos < 1 →
          (fileRead 2 pos 1 ((Request.write 2 ⟨0, 0⟩ 1 [66]).exec v).2).1 = .ok [0]) ↔
        GapZero (tinyParams 114).layout v.view (nodes 2) (v.view.inode 2).size 1 [66]) := by
  have hsmall : (tinyParams 114).Small := ⟨by decide, by decide⟩
  obtain ⟨v, nodes, hreach, hsound, hfile⟩ := tiny_file (D := MemoryDisk) anyRequest
    (Or.inl rfl) ⟨fun _ => 0⟩ nameOk_a (fun _ => trivial)
  have hfound := (hfile.inRoot ⟨by decide, by decide⟩).found hsound
  obtain ⟨ds, hplan⟩ := hfile.plan Nat.one_pos (show 1 + 1 ≤ 512 by decide)
  obtain ⟨-, -, hok, -⟩ := hsound.write_step hfound 1 [66] (by decide) hplan (by decide)
  obtain ⟨nodes', -, hiff⟩ := gap_reads_zero hsmall hreach hfound (Or.inl ⟨⟨0, 0⟩, rfl⟩)
    (show (1 : Nat) < 2 ^ 64 by decide) (by rw [hfile.size]; decide) hok
  exact ⟨v, nodes', hreach, hfound, hok, hiff⟩

/-- A file holds a byte 65, is cut to nothing and then written to behind its start: the byte is
read again. -/
theorem truncated_byte_returns : ∃ v : Volume MemoryDisk,
    Reachable anyRequest (tinyParams 114) ⟨fun _ => 0⟩ v ∧ Found v 2 ∧ (v.view.inode 2).size = 0 ∧
      ((Request.write 2 ⟨0, 0⟩ 1 [66]).exec v).1 = .ok () ∧
      (fileRead 2 0 1 ((Request.write 2 ⟨0, 0⟩ 1 [66]).exec v).2).1 = .ok [65] := by
  obtain ⟨v₁, nodes₁, hreach₁, hsound₁, hfile⟩ := tiny_file (D := MemoryDisk) anyRequest
    (Or.inl rfl) ⟨fun _ => 0⟩ nameOk_a (fun _ => trivial)
  have hin₁ := hfile.inRoot ⟨by decide, by decide⟩
  have hfound₁ := hin₁.found hsound₁
  -- the first write puts two bytes into a new block
  obtain ⟨ds, hplan⟩ := hfile.plan Nat.two_pos (show 0 + 2 ≤ 512 by decide)
  obtain ⟨nodes₂, hsound₂, -, htouches₁, -, -, hcap₂, hstream₂⟩ :=
    hsound₁.write_step hfound₁ 0 [65, 65] (by decide) hplan (by decide)
  have hreach₂ := Reachable.step hreach₁ (.write 2 ⟨0, 0⟩ 0 [65, 65])
    (show (0 : Nat) < 2 ^ 64 by decide)
    (fun j hj => by rw [List.mem_singleton.mp hj]; exact hfound₁) trivial
  generalize ((Request.write 2 ⟨0, 0⟩ 0 [65, 65]).exec v₁).2 = v₂ at hsound₂ hreach₂ htouches₁ hstream₂
  have hin₂ := hin₁.touched hsound₁.inventory.root.1 htouches₁ (by decide)
  have hfound₂ := hin₂.found hsound₂
  -- the file is cut
  obtain ⟨nodes₃, hsound₃, htouches₂, rfl, hsize₃, hblock₃⟩ := hsound₂.truncate_step hfound₂
  have hreach₃ := Reachable.step hreach₂ (.truncate 2 ⟨0, 0⟩ 0) trivial
    (fun j hj => by rw [List.mem_singleton.mp hj]; exact hfound₂) trivial
  generalize ((Request.truncate 2 ⟨0, 0⟩ 0).exec v₂).2 = v₃ at hsound₃ hreach₃ htouches₂ hsize₃ hblock₃
  have hin₃ := hin₂.touched hsound₂.inventory.root.1 htouches₂ (by decide)
  have hfound₃ := hin₃.found hsound₃
  -- the second write starts at the second byte, inside the block
  have hneed : growthNeed (tinyParams 114).layout (nodes₃ 2).data 1 ([66] : List UInt8).length = 0 := by
    change (0 + 2) ≤ (dataBlocks (nodes₃ 2).data).length * 512 at hcap₂
    change (1 + 1 + 512 - 1) % 2 ^ 64 / 512 - (dataBlocks (nodes₃ 2).data).length = 0
    omega
  have hplan₃ : planMany (tinyParams 114).layout
      (growthNeed (tinyParams 114).layout (nodes₃ 2).data 1 [(66 : UInt8)].length) v₃.view.blockBit
      (tailOf (nodes₃ 2).data) = some [] := by
    rw [hneed]
    rfl
  obtain ⟨nodes₄, hsound₄, hok₃, htouches₃, hdata₄, hsize₄, hcap₄, hstream₄⟩ :=
    hsound₃.write_step hfound₃ 1 [66] (by decide) hplan₃ (by decide)
  refine ⟨v₃, hreach₃, hfound₃, hsize₃, hok₃, ?_⟩
  have hlive₃ := hfound₃.live hsound₃.valid hsound₃.mounted hsound₃.inventory
  rw [hsound₄.fileRead_one ((live_congr htouches₃.inodeBit).mpr hlive₃)]
  rw [List.map_nil, List.append_nil] at hdata₄
  refine ⟨lt_of_lt_of_le (by decide) hsize₄, lt_of_lt_of_le (by decide) hcap₄, ?_⟩
  calc streamAt (tinyParams 114).layout _ (dataBlocks (nodes₄ 2).data) 0
      = streamAt (tinyParams 114).layout v₃.view (dataBlocks (nodes₃ 2).data) 0 := by
        rw [hstream₄, splice_of_lt _ _ (by decide), hdata₄]
    _ = streamAt (tinyParams 114).layout v₂.view (dataBlocks (nodes₃ 2).data) 0 := by
        rw [streamAt, streamAt, hblock₃]
    _ = 65 := by
        rw [hstream₂]
        rfl

/-! ## Byte strings -/

/-- A byte string with other bytes written over it from an offset on. -/
def overwrite (c : List UInt8) (off : Nat) (bytes : List UInt8) : List UInt8 :=
  c.take off ++ bytes ++ c.drop (off + bytes.length)

theorem length_overwrite {c : List UInt8} {off : Nat} (h : off ≤ c.length) (bytes : List UInt8) :
    (overwrite c off bytes).length = max c.length (off + bytes.length) := by
  rw [overwrite, List.length_append, List.length_append, List.length_take, List.length_drop]
  omega

/-- Splicing into a stream overwrites its front part. -/
theorem bytesAt_splice_overwrite (f : Nat → UInt8) {off size : Nat} (hoff : off ≤ size)
    (bytes : List UInt8) :
    bytesAt (splice f off bytes) 0 (max size (off + bytes.length)) =
      overwrite (bytesAt f 0 size) off bytes := by
  have hsplit : max size (off + bytes.length) =
      off + bytes.length + (size - (off + bytes.length)) := by omega
  have hfront : bytesAt (splice f off bytes) 0 off = (bytesAt f 0 size).take off := by
    rw [take_bytesAt f 0 hoff]
    exact bytesAt_congr (fun o _ ho => splice_of_lt f bytes (by omega))
  have hback : bytesAt (splice f off bytes) (off + bytes.length) (size - (off + bytes.length)) =
      (bytesAt f 0 size).drop (off + bytes.length) := by
    rw [bytesAt_congr (fun o ho _ => splice_of_ge f ho)]
    by_cases hle : off + bytes.length ≤ size
    · rw [drop_bytesAt f 0 hle, Nat.zero_add]
    · rw [Nat.sub_eq_zero_of_le (by omega), bytesAt_zero, List.drop_of_length_le]
      rw [length_bytesAt]
      omega
  rw [hsplit, bytesAt_add, bytesAt_add, Nat.zero_add, Nat.zero_add, bytesAt_splice_self, hfront, hback,
    overwrite]

/-- A write that starts inside the content of a file overwrites it. -/
theorem FileWrite.content_eq {off : Nat} {bytes : List UInt8}
    (h : FileWrite L V nodes i off bytes V' nodes' (.ok bytes.length))
    (hback : (V.inode i).size ≤ capacity L (nodes i).data) (hoff : off ≤ (V.inode i).size)
    (hbound : capacity L (nodes' i).data < 2 ^ 64) :
    (nodes' i).content L V' (V'.inode i) =
        overwrite ((nodes i).content L V (V.inode i)) off bytes ∧
      (V'.inode i).size = max (V.inode i).size (off + bytes.length) := by
  generalize hr : (Except.ok bytes.length : Except Stop Nat) = r at h
  cases h with
  | full => cases hr
  | wrapped => cases hr
  | written ds root hplan hdata hinode hbits hstream hle =>
      have hmono : capacity L (nodes i).data ≤ capacity L (nodes' i).data :=
        capacity_mono ⟨_, hdata.symm⟩
      have hend : off + bytes.length ≤ capacity L (nodes' i).data := by
        by_cases hne : bytes = []
        · rw [hne, List.length_nil]
          omega
        · exact hle hne
      have hsize : (V'.inode i).size = max (V.inode i).size (off + bytes.length) := by
        rw [hinode]
        change max (V.inode i).size ((off + bytes.length) % 2 ^ 64) = _
        rw [Nat.mod_eq_of_lt (by omega)]
      refine ⟨?_, hsize⟩
      have hold : bytesAt (streamAt L V (dataBlocks (nodes' i).data)) 0 (V.inode i).size =
          (nodes i).content L V (V.inode i) := by
        rw [Node.content, Nat.min_eq_left hback, hdata]
        exact bytesAt_congr (fun o _ ho => streamAt_append_left V _ (by
          rw [Nat.zero_add] at ho
          exact lt_of_lt_of_le ho hback))
      rw [Node.content, hsize, Nat.min_eq_left (by omega), hstream, bytesAt_splice_overwrite _ hoff,
        hold]

/-- Read a file piece by piece, each from where the last one has ended. -/
def readChunks (ino : Nat) : (offset : Nat) → List Nat → NyfsM D (List UInt8)
  | _, [] => pure []
  | offset, size :: sizes => do
      let bytes ← fileRead ino offset size
      let rest ← readChunks ino (offset + bytes.length) sizes
      pure (bytes ++ rest)

theorem take_drop_add {α : Type} (c : List α) (off size more : Nat) :
    (c.drop off).take (size + more) = (c.drop off).take size ++
      (c.drop (off + ((c.drop off).take size).length)).take more := by
  rw [List.take_add, List.drop_drop]
  by_cases hle : size ≤ c.length - off
  · rw [List.length_take, List.length_drop, Nat.min_eq_left hle]
  · rw [List.length_take, List.length_drop, Nat.min_eq_right (by omega)]
    congr 2
    rw [List.drop_of_length_le (by omega), List.drop_of_length_le (by omega)]

/-- Reading in pieces returns what one read returns. -/
theorem Inventory.does_readChunks (hL : L.Valid) (h : Inventory L V nodes) (hi : Live L V i)
    (off : Nat) (sizes : List Nat) :
    Does L V (readChunks i off sizes : NyfsM D _)
      (.ok ((((nodes i).content L V (V.inode i)).drop off).take sizes.sum)) V := by
  induction sizes generalizing off with
  | nil =>
      rw [List.sum_nil, List.take_zero]
      exact Does.pure []
  | cons size sizes ih =>
      rw [List.sum_cons, take_drop_add]
      exact (h.does_fileRead hL hi off size).bind ((ih _).bind (Does.pure _))

/-- The calls that read agree on the content of a file. -/
structure ReadsAs (v : Volume D) (ino : Nat) (c : List UInt8) : Prop where
  length : c.length = (v.view.inode ino).size
  file : ∀ off size, (fileRead ino off size v).1 = .ok ((c.drop off).take size)
  chunks : ∀ off sizes, (readChunks ino off sizes v).1 = .ok ((c.drop off).take sizes.sum)
  host : ∀ cred off size, (opRead ino cred off size v).1 =
    if Grants v.view (v.view.inode ino) cred nyfsAceReadData then .ok ((c.drop off).take size)
    else .error (.status .Npermission)

/-- Reads of a file whose size lies inside its stream. -/
theorem Sound.readsAs (h : Sound L v nodes) (hi : Live L v.view i)
    (hback : (v.view.inode i).size ≤ capacity L (nodes i).data) :
    ReadsAs v i ((nodes i).content L v.view (v.view.inode i)) := by
  refine ⟨?_, h.fileRead hi, ?_, ?_⟩
  · rw [Node.length_content, Nat.min_eq_left hback]
  · intro off sizes
    obtain ⟨v', hrun, -⟩ := (h.inventory.does_readChunks (D := D) h.valid hi off sizes).run h.valid
      h.mounted rfl
    rw [hrun]
  · intro cred off size
    obtain ⟨v', hrun, -⟩ := (h.inventory.does_opRead (D := D) h.valid hi cred off size).run h.valid
      h.mounted rfl
    rw [hrun]

/-- Every write starts inside the content of its file. -/
def noGaps (v : Volume D) : Request → Prop
  | .write ino _ offset _ => offset ≤ (v.view.inode ino).size
  | .writeFile ino offset _ => offset ≤ (v.view.inode ino).size
  | _ => True

theorem noGaps.inside (hsound : Sound L v nodes) (hback : Backed L v.view nodes) {q : Request}
    (hfound : ∀ j ∈ q.inodes, Found v j) (h : noGaps v q) : emptyWritesInside v q := by
  have hinside : ∀ j, Found v j → ∀ off, off ≤ (v.view.inode j).size → off ≤ streamBytes v j := by
    intro j hj off hoff
    have hlive := hj.live hsound.valid hsound.mounted hsound.inventory
    rw [hsound.streamBytes_eq hlive]
    exact le_trans hoff (hback j hlive)
  cases q with
  | write ino cred offset bytes =>
      exact fun _ => hinside ino (hfound ino List.mem_cons_self) offset h
  | writeFile ino offset bytes =>
      exact fun _ => hinside ino (hfound ino List.mem_cons_self) offset h
  | _ => trivial

theorem Reachable.noGaps_inside (hsmall : p.Small) (h : Reachable noGaps p d v) :
    Reachable emptyWritesInside p d v := by
  induction h with
  | opened hformat hopen => exact Reachable.opened hformat hopen
  | step _ q hfits hfound hallowed ih =>
      obtain ⟨nodes, hsound, hback⟩ := ih.backed hsmall
      exact Reachable.step ih q hfits hfound (noGaps.inside hsound hback hfound hallowed)

/-- The requests that change the content of an inode. -/
def Request.Changes (q : Request) (ino : Nat) : Prop :=
  (∃ off bytes, q.Writes ino off bytes) ∨ ∃ cred size, q = .truncate ino cred size

/-- A request that does not write to a file or cut it leaves its content. -/
theorem Effect.content_eq {q : Request} {r : Except Stop Unit}
    (h : Effect L V nodes V' nodes' q r) (hi : Live L V i) (hi' : Live L V' i) (hno : ¬q.Changes i) :
    (nodes' i).content L V' (V'.inode i) = (nodes i).content L V (V.inode i) := by
  cases h.data_cases hi' with
  | same _ hsame hsize => exact hsame.content_eq hsize
  | new _ hbit =>
      rw [hi.set] at hbit
      cases hbit
  | cut cred size => exact absurd (Or.inr ⟨cred, size, rfl⟩) hno
  | write cred off bytes => exact absurd (Or.inl ⟨off, bytes, Or.inl ⟨cred, rfl⟩⟩) hno
  | writeFile off bytes => exact absurd (Or.inl ⟨off, bytes, Or.inr rfl⟩) hno

theorem Request.Writes.found {q : Request} {off : Nat} {bytes : List UInt8}
    (hq : q.Writes i off bytes) (hfound : Found v i) : ∀ j ∈ q.inodes, Found v j := by
  intro j hj
  rcases hq with ⟨cred, rfl⟩ | rfl
  · rw [List.mem_singleton.mp hj]
    exact hfound
  · rw [List.mem_singleton.mp hj]
    exact hfound

theorem Request.Writes.noGaps {q : Request} {off : Nat} {bytes : List UInt8}
    (hq : q.Writes i off bytes) (hoff : off ≤ (v.view.inode i).size) : Nyfs.noGaps v q := by
  rcases hq with ⟨cred, rfl⟩ | rfl
  · exact hoff
  · exact hoff

/-- In a run without gaps a file is a byte string: writes overwrite it, reads return parts of it,
and other requests leave it alone. -/
theorem files_refine_bytes (hsmall : p.Small) (h : Reachable noGaps p d v) (hfound : Found v i) :
    ∃ c, ReadsAs v i c ∧
      (∀ (q : Request) off bytes, q.Writes i off bytes → q.Fits → off ≤ c.length →
        (q.exec v).1 = .ok () →
        ReadsAs (q.exec v).2 i (overwrite c off bytes) ∧
        (overwrite c off bytes).length = max c.length (off + bytes.length) ∧
        ∀ j, Live v.sb.layout v.view j → j ≠ i →
          (∀ o n, (fileRead j o n (q.exec v).2).1 = (fileRead j o n v).1) ∧
          ∀ name, (lookupName j name (q.exec v).2).1 = (lookupName j name v).1) ∧
      (∀ q : Request, q.Fits → (∀ j ∈ q.inodes, Found v j) → noGaps v q → ¬q.Changes i →
        Live v.sb.layout (q.exec v).2.view i → ReadsAs (q.exec v).2 i c) := by
  obtain ⟨nodes, hsound, hback⟩ := (h.noGaps_inside hsmall).backed hsmall
  have hlayout : v.sb.layout = p.layout := hsound.mounted.layout
  have hlive := hfound.live hsound.valid hsound.mounted hsound.inventory
  have hlength : ((nodes i).content p.layout v.view (v.view.inode i)).length =
      (v.view.inode i).size := by
    rw [Node.length_content, Nat.min_eq_left (hback i hlive)]
  -- the sizes stay inside the streams
  have hstep : ∀ q : Request, q.Fits → (∀ j ∈ q.inodes, Found v j) → noGaps v q →
      ∃ nodes', Sound p.layout (q.exec v).2 nodes' ∧
        Effect p.layout v.view nodes (q.exec v).2.view nodes' q (q.exec v).1 ∧
        Backed p.layout (q.exec v).2.view nodes' := by
    intro q hfits hfinds hgaps
    obtain ⟨nodes', hsound', heffect⟩ := hsound.exec q hfits hfinds
    exact ⟨nodes', hsound', heffect,
      hsound.backed_exec hback (noGaps.inside hsound hback hfinds hgaps) heffect⟩
  rw [hlayout]
  refine ⟨_, hsound.readsAs hlive (hback i hlive), ?_, ?_⟩
  · intro q off bytes hq hfits hoff hok
    rw [hlength] at hoff
    obtain ⟨nodes', hsound', heffect, hback'⟩ := hstep q hfits (hq.found hfound) (hq.noGaps hoff)
    rw [hok] at heffect
    obtain ⟨htouches, hout⟩ := heffect.written_of_ok hq
    have hlive' := (live_congr htouches.inodeBit).mpr hlive
    have hbytes := hsound.valid.bytes_lt
    have hcap := (hsound'.inventory.holds i hlive').data.capacity_lt hsound.valid
    obtain ⟨hcontent, -⟩ := hout.content_eq (hback i hlive) hoff (by omega)
    refine ⟨?_, length_overwrite (by rw [hlength]; exact hoff) bytes, ?_⟩
    · rw [← hcontent]
      exact hsound'.readsAs hlive' (hback' i hlive')
    · intro j hj hne
      have hkept := htouches.others j hj hne
      constructor
      · intro o n
        rw [hsound'.fileRead hkept.live, hsound.fileRead hj,
          (hkept.sameData hj).content_eq (Inode.size_of_core hkept.core)]
      · intro name
        rw [hsound'.lookupName hkept.live, hsound.lookupName hj, Inode.type_of_core hkept.core,
          Node.lookup, Node.lookup, htouches.finds]
  · intro q hfits hfinds hgaps hno hlive'
    obtain ⟨nodes', hsound', heffect, hback'⟩ := hstep q hfits hfinds hgaps
    rw [← heffect.content_eq hlive hlive' hno]
    exact hsound'.readsAs hlive' (hback' i hlive')

theorem files_refine_bytes_small : ∃ v : Volume MemoryDisk,
    Reachable noGaps (tinyParams 114) ⟨fun _ => 0⟩ v ∧ Found v 2 ∧
      (v.view.inode 2).type = nyfsInoTypeFile ∧ ∃ c, ReadsAs v 2 c ∧
        ∀ (q : Request) off bytes, q.Writes 2 off bytes → q.Fits → off ≤ c.length →
          (q.exec v).1 = .ok () → ReadsAs (q.exec v).2 2 (overwrite c off bytes) := by
  have hsmall : (tinyParams 114).Small := ⟨by decide, by decide⟩
  obtain ⟨v, nodes, hreach, hsound, hfile⟩ := tiny_file (D := MemoryDisk) noGaps
    (Or.inl rfl) ⟨fun _ => 0⟩ nameOk_a (fun _ => trivial)
  have hfound := (hfile.inRoot ⟨by decide, by decide⟩).found hsound
  obtain ⟨c, hreads, hwrites, -⟩ := files_refine_bytes hsmall hreach hfound
  refine ⟨v, hreach, hfound, hfile.type, c, hreads, ?_⟩
  intro q off bytes hq hfits hoff hok
  exact (hwrites q off bytes hq hfits hoff hok).1

end Nyfs
end Nyxis
