import Nyxis.Boot.Multiboot2

/-!
# The tags of a Multiboot2 block

The list of the tags that the conversion of a block meets, a rule for what the conversion
leaves behind after any list of tags, and with it the framebuffer that it reports.

Main results:

- Theorem {lit}`multiboot2_tags`: what every tag keeps holds of the tags of an accepted block.
- Theorem {lit}`framebuffer_consistent_iff`: when the reported framebuffer is consistent.
-/

namespace Nyxis
namespace Boot

open Bytes

/-! ## The list of tags -/

/-- A tag: where it starts, and the type and the size that its header states. -/
structure Tag where
  addr : Nat
  type : Nat
  size : Nat
deriving DecidableEq

/-- The tags from an offset on, up to the end tag, the end of the block or the first tag that
does not fit. -/
def blockTags (mem : Nat → UInt8) (mbi total : Nat) : (fuel off : Nat) → List Tag
  | 0, _ => []
  | fuel + 1, off =>
      let type := leNat (bytesAt mem (mbi + off) 4)
      let size := leNat (bytesAt mem (mbi + off + 4) 4)
      if total < off + 8 ∨ type = mb2TagEnd ∨ size < 8 ∨ total - off < size then
        []
      else
        ⟨mbi + off, type, size⟩ :: blockTags mem mbi total fuel (off + (size + 7) / 8 * 8)

/-- The tags of a block. -/
def tagsOf (mem : Nat → UInt8) (mbi : Nat) : List Tag :=
  blockTags mem mbi (totalSize mem mbi) (totalSize mem mbi) 8

variable {mem : Nat → UInt8} {P : List Tag → Parse → Prop}

/-- What holds of the tags so far and the output so far is kept by reading and by each tag. -/
structure TagRule (mem : Nat → UInt8) (memmapBuf memmapCap : Nat)
    (P : List Tag → Parse → Prop) : Prop where
  start : ∀ memmap, P [] ⟨Ntbli.start, memmap, []⟩
  read : ∀ ts s p width, P ts s → P ts (s.logged p width)
  step : ∀ ts s t haveRsdpNew, P ts s →
    Eff.Post (convertTag mem memmapBuf memmapCap t.addr t.type t.size haveRsdpNew) s
      (fun r s' => (∃ x, r = .ok x) → P (ts ++ [t]) s')

/-- The loop over the tags carries what every tag keeps over the list of the tags. -/
theorem tagLoop_tags {mbi total memmapBuf memmapCap fuel off : Nat} {haveRsdpNew : Bool}
    (hrule : TagRule mem memmapBuf memmapCap P) (htotal : total ≤ mb2MaxInfoSize)
    (hoff : off ≤ total + 7) {ts : List Tag} {s : Parse} (h : P ts s) :
    Eff.Post (tagLoop mem mbi total memmapBuf memmapCap fuel off haveRsdpNew) s
      (fun r s' => (∃ x, r = .ok x) → P (ts ++ blockTags mem mbi total fuel off) s') := by
  unfold mb2MaxInfoSize at htotal
  induction fuel generalizing off haveRsdpNew s ts with
  | zero =>
      refine Eff.post_of_eq rfl ?_
      rintro ⟨x, hx⟩
      cases hx
  | succ fuel ih =>
      have hwrap : (off + 8) % 2 ^ 32 = off + 8 := Nat.mod_eq_of_lt (by omega)
      unfold tagLoop blockTags
      rw [hwrap]
      split
      next hin =>
        refine Eff.post_bind_ok rfl (Eff.post_bind_ok rfl ?_)
        have hread := hrule.read _ _ (mbi + off + 4) 4 (hrule.read _ _ (mbi + off) 4 h)
        obtain ⟨type, htype⟩ : ∃ n, n = leNat (bytesAt mem (mbi + off) 4) := ⟨_, rfl⟩
        obtain ⟨size, hsize⟩ : ∃ n, n = leNat (bytesAt mem (mbi + off + 4) 4) := ⟨_, rfl⟩
        rw [← htype, ← hsize]
        dsimp only
        split
        next hend =>
          rw [if_pos (Or.inr (Or.inl hend)), List.append_nil]
          exact Eff.post_of_eq rfl (fun _ => hread)
        next hend =>
          split
          next =>
            refine Eff.post_of_eq rfl ?_
            rintro ⟨x, hx⟩
            cases hx
          next hfit =>
            rw [if_neg (by omega)]
            refine Eff.post_bind (hrule.step ts _ ⟨mbi + off, type, size⟩ haveRsdpNew hread) ?_ ?_
            · rintro e s' - ⟨x, hx⟩
              cases hx
            · intro x s' hok
              have hnext : (off + (size + 7) % 2 ^ 32 / 8 * 8) % 2 ^ 32 =
                  off + (size + 7) / 8 * 8 := by omega
              rw [hnext, List.append_cons]
              exact ih (by omega) (hok ⟨x, rfl⟩)
      next hout =>
        rw [if_pos (Or.inl (by omega)), List.append_nil]
        exact Eff.post_of_eq rfl (fun _ => h)

/-- The conversion accepts a block. -/
def Accepted (mem : Nat → UInt8) (mbi memmapBuf memmapCap : Nat) (s : Parse) : Prop :=
  ∃ out memmap, multiboot2ToNtbli mem mbi memmapBuf memmapCap ⟨out, memmap, []⟩ = (.ok (), s)

/-- After an accepted block, what every tag keeps holds of the tags of the block, and a memory
map has been reported. -/
theorem multiboot2_tags {mbi memmapBuf memmapCap : Nat} {s : Parse}
    (hrule : TagRule mem memmapBuf memmapCap P)
    (haccept : Accepted mem mbi memmapBuf memmapCap s) :
    P (tagsOf mem mbi) s ∧ s.out.memmapBase ≠ 0 := by
  obtain ⟨out, memmap, hrun⟩ := haccept
  have hpost : Eff.Post (multiboot2ToNtbli mem mbi memmapBuf memmapCap) ⟨out, memmap, []⟩
      (fun r s => (∃ x, r = .ok x) → P (tagsOf mem mbi) s ∧ s.out.memmapBase ≠ 0) := by
    unfold multiboot2ToNtbli
    split
    next => exact Eff.post_of_eq rfl nofun
    next =>
      split
      next => exact Eff.post_of_eq rfl nofun
      next =>
        refine Eff.post_bind_ok rfl ?_
        change Eff.Post (if totalSize mem mbi < 16 ∨ mb2MaxInfoSize < totalSize mem mbi ∨
          2 ^ 32 < mbi + totalSize mem mbi then _ else _) _ _
        split
        next => exact Eff.post_of_eq rfl nofun
        next hheader =>
          refine Eff.post_bind_ok rfl ?_
          have hstart : P [] (Parse.logged ⟨Ntbli.start, memmap, []⟩ mbi 4) :=
            hrule.read _ _ _ _ (hrule.start memmap)
          have hloop : Eff.Post (tagLoop mem mbi (totalSize mem mbi) memmapBuf memmapCap
              (totalSize mem mbi) 8 false) (Parse.logged ⟨Ntbli.start, memmap, []⟩ mbi 4)
              (fun r s => (∃ x, r = .ok x) → P (tagsOf mem mbi) s) :=
            tagLoop_tags hrule (by omega) (by omega) hstart
          refine Eff.post_bind hloop (fun e s' _ => nofun) ?_
          intro x s' htags
          refine Eff.post_gets_bind ?_
          split
          next => exact Eff.post_of_eq rfl nofun
          next hreport =>
            rw [not_or] at hreport
            exact Eff.post_of_eq rfl (fun _ => ⟨htags ⟨x, rfl⟩, hreport.1⟩)
  unfold Eff.Post at hpost
  rw [hrun] at hpost
  exact hpost ⟨(), rfl⟩

/-! ## The arms of the switch -/

/-- A tag that is no memory map and no framebuffer leaves the descriptors, the size of the
memory and the framebuffer alone. -/
theorem convertTag_other {memmapBuf memmapCap : Nat} {t : Tag} {haveRsdpNew : Bool} {s : Parse}
    (hmap : t.type ≠ mb2TagMmap) (hfb : t.type ≠ mb2TagFramebuf) :
    Eff.Post (convertTag mem memmapBuf memmapCap t.addr t.type t.size haveRsdpNew) s
      (fun _ s' => s'.memmap = s.memmap ∧ ∃ base size rsdp,
        s'.out = { s.out with initrdBase := base, initrdSize := size, rsdp := rsdp }) := by
  unfold convertTag
  split
  next =>
    have hmodule : Eff.Post (convertModule mem t.addr t.size) s (fun _ s' =>
        s'.memmap = s.memmap ∧ ∃ base size rsdp,
          s'.out = { s.out with initrdBase := base, initrdSize := size, rsdp := rsdp }) := by
      refine Eff.post_gets_bind ?_
      split
      next =>
        refine Eff.post_bind_ok rfl (Eff.post_bind_ok rfl ?_)
        split
        next => exact Eff.post_of_eq rfl ⟨rfl, _, _, s.out.rsdp, rfl⟩
        next => exact Eff.post_of_eq rfl ⟨rfl, s.out.initrdBase, s.out.initrdSize, s.out.rsdp, rfl⟩
      next => exact Eff.post_of_eq rfl ⟨rfl, s.out.initrdBase, s.out.initrdSize, s.out.rsdp, rfl⟩
    refine Eff.post_bind hmodule (fun e s' h => h) (fun x s' h => Eff.post_of_eq rfl h)
  next =>
    have hkept : s.memmap = s.memmap ∧ ∃ base size rsdp,
        s.out = { s.out with initrdBase := base, initrdSize := size, rsdp := rsdp } :=
      ⟨rfl, s.out.initrdBase, s.out.initrdSize, s.out.rsdp, rfl⟩
    have hrsdp : ∀ x : Bool, Eff.Post (setOut (fun out => { out with rsdp := t.addr + 8 }) >>=
        fun _ => pure x : ParseM Bool) s (fun _ s' => s'.memmap = s.memmap ∧ ∃ base size rsdp,
          s'.out = { s.out with initrdBase := base, initrdSize := size, rsdp := rsdp }) := by
      intro x
      refine Eff.post_bind_ok rfl (Eff.post_of_eq rfl ?_)
      exact ⟨rfl, s.out.initrdBase, s.out.initrdSize, t.addr + 8, rfl⟩
    split
    next =>
      split
      next => exact hrsdp _
      next => exact Eff.post_of_eq rfl hkept
    next =>
      split
      next =>
        split
        next => exact hrsdp _
        next => exact Eff.post_of_eq rfl hkept
      next => exact Eff.post_of_eq rfl hkept

/-! ## The framebuffer -/

/-- The pitch, the width and the height of a framebuffer tag. -/
def Tag.pitch (mem : Nat → UInt8) (t : Tag) : Nat :=
  leNat (bytesAt mem (t.addr + 16) 4)

@[inherit_doc Tag.pitch]
def Tag.width (mem : Nat → UInt8) (t : Tag) : Nat :=
  leNat (bytesAt mem (t.addr + 20) 4)

@[inherit_doc Tag.pitch]
def Tag.height (mem : Nat → UInt8) (t : Tag) : Nat :=
  leNat (bytesAt mem (t.addr + 24) 4)

/-- The base address of a framebuffer tag. -/
def Tag.base (mem : Nat → UInt8) (t : Tag) : Nat :=
  leNat (bytesAt mem (t.addr + 8) 8)

/-- A framebuffer tag that the conversion takes over: long enough, direct colour with 32 bits
for a pixel, not empty, and with a pitch that passes the check in 32-bit arithmetic. -/
def Tag.TakenOver (mem : Nat → UInt8) (t : Tag) : Prop :=
  t.type = mb2TagFramebuf ∧ 38 ≤ t.size ∧
    leNat (bytesAt mem (t.addr + 29) 1) = 1 ∧ leNat (bytesAt mem (t.addr + 28) 1) = 32 ∧
    t.base mem ≠ 0 ∧ t.width mem ≠ 0 ∧ t.height mem ≠ 0 ∧
    t.pitch mem % 4 = 0 ∧ t.width mem * 4 % 2 ^ 32 ≤ t.pitch mem

instance (mem : Nat → UInt8) (t : Tag) : Decidable (t.TakenOver mem) :=
  inferInstanceAs (Decidable (_ ∧ _))

/-- The last tag of a list that the conversion takes over. -/
def lastScreen (mem : Nat → UInt8) (tags : List Tag) : Option Tag :=
  (tags.filter (fun t => t.TakenOver mem)).getLast?

/-- The geometry of the framebuffer in the information. -/
structure Screen where
  base : Nat
  size : Nat
  width : Nat
  height : Nat
  pixelsPerScanLine : Nat
deriving DecidableEq

/-- The framebuffer that the information reports. -/
def Ntbli.screen (out : Ntbli) : Screen :=
  ⟨out.framebufferBase, out.framebufferSize, out.width, out.height, out.pixelsPerScanLine⟩

/-- The framebuffer of a tag. -/
def Tag.screen (mem : Nat → UInt8) (t : Tag) : Screen :=
  ⟨t.base mem, t.pitch mem * t.height mem, t.width mem, t.height mem, t.pitch mem / 4⟩

/-- The framebuffer that a list of tags leaves behind. -/
def screenOf (mem : Nat → UInt8) (tags : List Tag) : Screen :=
  match lastScreen mem tags with
  | none => ⟨0, 0, 0, 0, 0⟩
  | some t => t.screen mem

theorem lastScreen_append (ts : List Tag) (t : Tag) :
    lastScreen mem (ts ++ [t]) = if t.TakenOver mem then some t else lastScreen mem ts := by
  unfold lastScreen
  rw [List.filter_append]
  split
  next htaken => rw [List.filter_cons_of_pos (by simpa using htaken), List.filter_nil,
    List.getLast?_append, List.getLast?_singleton, Option.some_or]
  next hnot => rw [List.filter_cons_of_neg (by simpa using hnot), List.filter_nil,
    List.append_nil]

theorem screenOf_append (ts : List Tag) (t : Tag) :
    screenOf mem (ts ++ [t]) = if t.TakenOver mem then t.screen mem else screenOf mem ts := by
  unfold screenOf
  rw [lastScreen_append]
  by_cases htaken : t.TakenOver mem
  · rw [if_pos htaken, if_pos htaken]
  · rw [if_neg htaken, if_neg htaken]

theorem lastScreen_takenOver {tags : List Tag} {t : Tag}
    (hlast : lastScreen mem tags = some t) : t.TakenOver mem := by
  have hmem : t ∈ tags.filter (fun t => t.TakenOver mem) := List.mem_of_getLast? hlast
  simpa using (List.mem_filter.mp hmem).2

/-- The framebuffer stays what it is. -/
def SameScreen (s s' : Parse) : Prop :=
  s'.out.screen = s.out.screen

theorem sameScreen_trans (a b c : Parse) (hab : SameScreen a b) (hbc : SameScreen b c) :
    SameScreen a c :=
  hbc.trans hab

theorem rd_sameScreen (width p : Nat) : Eff.Moves SameScreen (rd mem width p) :=
  fun _ => rfl

/-- The conversion of a memory map leaves the framebuffer alone. -/
theorem convertEntries_sameScreen {tag entrySize cap n i used : Nat} :
    Eff.Moves SameScreen (convertEntries mem tag entrySize cap n i used) := by
  induction n generalizing i used with
  | zero => exact fun _ => rfl
  | succ n ih =>
      refine (rd_sameScreen _ _).bind sameScreen_trans (fun base => ?_)
      refine (rd_sameScreen _ _).bind sameScreen_trans (fun len => ?_)
      refine (rd_sameScreen _ _).bind sameScreen_trans (fun type => ?_)
      dsimp only
      split
      next => exact ih
      next start stop _ =>
        refine Eff.moves_ite (fun _ => rfl) ?_
        refine Eff.Moves.bind (fun _ => rfl) sameScreen_trans (fun _ => ?_)
        refine Eff.Moves.bind (fun s => ?_) sameScreen_trans (fun _ => ih)
        change Ntbli.screen (ite _ _ _) = _
        split
        next => rfl
        next => rfl

theorem convertMmap_sameScreen {tag tagSize cap : Nat} :
    Eff.Moves SameScreen (convertMmap mem tag tagSize cap) := by
  refine Eff.Moves.bind (fun _ => rfl) sameScreen_trans (fun _ => ?_)
  refine Eff.moves_ite (fun _ => rfl) ?_
  refine (rd_sameScreen _ _).bind sameScreen_trans (fun entrySize => ?_)
  exact Eff.moves_ite (fun _ => rfl) convertEntries_sameScreen

/-- The output stays what it is. -/
def SameOutput (s s' : Parse) : Prop :=
  s'.memmap = s.memmap ∧ s'.out = s.out

/-- Reading a number leaves the output alone. -/
theorem post_rd_bind {α : Type} {f : Nat → ParseM α} {Q : Except Stop α → Parse → Prop}
    {width p : Nat} {s₀ s : Parse} (hsame : SameOutput s₀ s)
    (h : ∀ s', SameOutput s₀ s' → Eff.Post (f (leNat (bytesAt mem p width))) s' Q) :
    Eff.Post (rd mem width p >>= f) s Q :=
  Eff.post_bind_ok rfl (h (s.logged p width) hsame)

/-- A framebuffer tag is taken over as a whole, or nothing changes. -/
theorem convertFramebuffer_screen {t : Tag} {s : Parse} (htype : t.type = mb2TagFramebuf) :
    Eff.Post (convertFramebuffer mem t.addr t.size) s (fun _ s' => s'.memmap = s.memmap ∧
      s'.out.memmapSize = s.out.memmapSize ∧ s'.out.memmapBase = s.out.memmapBase ∧
      s'.out.screen = if t.TakenOver mem then t.screen mem else s.out.screen) := by
  -- a tag that is not taken over changes nothing
  have hskip : ∀ s', SameOutput s s' → ¬ t.TakenOver mem →
      Eff.Post (pure () : ParseM Unit) s' (fun _ s' => s'.memmap = s.memmap ∧
        s'.out.memmapSize = s.out.memmapSize ∧ s'.out.memmapBase = s.out.memmapBase ∧
        s'.out.screen = if t.TakenOver mem then t.screen mem else s.out.screen) := by
    rintro s' ⟨hmap, hout⟩ hnot
    rw [if_neg hnot]
    refine Eff.post_of_eq rfl ⟨hmap, ?_, ?_, ?_⟩
    · rw [hout]
    · rw [hout]
    · rw [hout]
  have hsame : SameOutput s s := ⟨rfl, rfl⟩
  unfold convertFramebuffer
  split
  next hshort => exact hskip s hsame (fun htaken => by have := htaken.2.1; omega)
  next hlong =>
    refine post_rd_bind hsame fun s₁ h₁ => post_rd_bind h₁ fun s₂ h₂ => post_rd_bind h₂ fun s₃ h₃ =>
      post_rd_bind h₃ fun s₄ h₄ => post_rd_bind h₄ fun s₅ h₅ => post_rd_bind h₅ fun s₆ h₆ =>
      post_rd_bind h₆ fun s₇ h₇ => post_rd_bind h₇ fun s₈ h₈ => post_rd_bind h₈ fun s₉ h₉ => ?_
    split
    next hkind =>
      refine hskip s₉ h₉ (fun htaken => ?_)
      obtain ⟨-, -, hfb, hbpp, haddr, hwidth, hheight, -⟩ := htaken
      rcases hkind with h | h | h | h | h
      · exact h hfb
      · exact h hbpp
      · exact haddr h
      · exact hwidth h
      · exact hheight h
    next hkind =>
      simp only [not_or, not_not] at hkind
      obtain ⟨hfb, hbpp, haddr, hwidth, hheight⟩ := hkind
      split
      next hpitch =>
        refine hskip s₉ h₉ (fun htaken => ?_)
        obtain ⟨-, -, -, -, -, -, -, halign, hfit⟩ := htaken
        unfold Tag.pitch at halign hfit
        unfold Tag.width at hfit
        rcases hpitch with h | h
        · exact h halign
        · exact Nat.not_lt.mpr hfit h
      next hpitch =>
        rw [not_or, not_not, Nat.not_lt] at hpitch
        have htaken : t.TakenOver mem := by
          unfold Tag.TakenOver Tag.base Tag.width Tag.height Tag.pitch
          exact ⟨htype, Nat.not_lt.mp hlong, hfb, hbpp, haddr, hwidth, hheight, hpitch⟩
        rw [if_pos htaken]
        refine Eff.post_of_eq rfl ⟨h₉.1, ?_, ?_, ?_⟩
        · change s₉.out.memmapSize = s.out.memmapSize
          rw [h₉.2]
        · change s₉.out.memmapBase = s.out.memmapBase
          rw [h₉.2]
        · unfold Tag.screen Tag.base Tag.width Tag.height Tag.pitch
          rfl

/-- The reported framebuffer is that of the last tag that is taken over. -/
theorem screen_rule (memmapBuf memmapCap : Nat) :
    TagRule mem memmapBuf memmapCap (fun ts s => s.out.screen = screenOf mem ts) where
  start _ := rfl
  read _ _ _ _ h := h
  step ts s t haveRsdpNew h := by
    rw [screenOf_append]
    by_cases hfb : t.type = mb2TagFramebuf
    · unfold convertTag
      rw [hfb, if_neg (by decide), if_neg (by decide), if_pos rfl]
      refine Eff.post_bind (convertFramebuffer_screen hfb) (fun e s' _ => nofun) ?_
      rintro x s' ⟨-, -, -, hscreen⟩
      refine Eff.post_of_eq rfl (fun _ => ?_)
      rw [hscreen, h]
    · rw [if_neg (fun htaken : t.TakenOver mem => hfb htaken.1)]
      by_cases hmap : t.type = mb2TagMmap
      · unfold convertTag
        rw [hmap, if_neg (by decide), if_pos rfl]
        have hsame : Eff.Post (convertMmap mem t.addr t.size (memmapCap / memDescSize)) s
            (fun _ s' => SameScreen s s') := convertMmap_sameScreen s
        refine post_attemptStatus_bind hsame ?_ ?_ (fun s' _ => nofun) (fun s' _ => nofun)
        · intro count s' hkept
          exact Eff.post_bind_ok rfl (Eff.post_of_eq rfl (fun _ => hkept.trans h))
        · intro e s' _
          exact Eff.post_of_eq rfl nofun
      · refine Eff.post_mono (convertTag_other hmap hfb) ?_
        rintro r s' ⟨-, base, size, rsdp, hout⟩ -
        rw [hout]
        exact h

/-- A reported framebuffer has lines as long as its width, and all its pixels lie inside the
reported size. -/
def FramebufferConsistent (out : Ntbli) : Prop :=
  out.framebufferBase ≠ 0 →
    out.width ≤ out.pixelsPerScanLine ∧
    ∀ x < out.width, ∀ y < out.height,
      (y * out.pixelsPerScanLine + x) * 4 + 4 ≤ out.framebufferSize

/-- A pixel of a line that fits the pitch lies inside the lines of a framebuffer. -/
theorem pixel_inside {pitch height x y : Nat} (halign : pitch % 4 = 0) (hx : x < pitch / 4)
    (hy : y < height) : (y * (pitch / 4) + x) * 4 + 4 ≤ pitch * height := by
  have hpitch : pitch = pitch / 4 * 4 := by omega
  calc (y * (pitch / 4) + x) * 4 + 4 = y * (pitch / 4 * 4) + (x * 4 + 4) := by ring
    _ = y * pitch + (x * 4 + 4) := by rw [← hpitch]
    _ ≤ y * pitch + pitch := by omega
    _ = (y + 1) * pitch := (Nat.succ_mul y pitch).symm
    _ ≤ height * pitch := Nat.mul_le_mul_right _ hy
    _ = pitch * height := Nat.mul_comm _ _

/-- The framebuffer of a tag that is taken over is consistent unless its width makes the check
of the pitch wrap. -/
theorem Tag.TakenOver.consistent_iff {t : Tag} (htaken : t.TakenOver mem) {out : Ntbli}
    (hscreen : out.screen = t.screen mem) :
    FramebufferConsistent out ↔ t.width mem < 2 ^ 30 := by
  obtain ⟨-, -, -, -, hbase, -, -, halign, hfit⟩ := htaken
  obtain ⟨hb, hs, hw, hh, hp⟩ : out.framebufferBase = t.base mem ∧
      out.framebufferSize = t.pitch mem * t.height mem ∧ out.width = t.width mem ∧
      out.height = t.height mem ∧ out.pixelsPerScanLine = t.pitch mem / 4 :=
    Screen.mk.inj hscreen
  have hpitch : t.pitch mem < 256 ^ 4 := leNat_bytesAt_lt _ _
  unfold FramebufferConsistent
  rw [hb, hs, hw, hh, hp]
  constructor
  · intro h
    have hwidth : t.width mem ≤ t.pitch mem / 4 := (h hbase).1
    omega
  · intro hwidth _
    have hline : t.width mem ≤ t.pitch mem / 4 := by omega
    exact ⟨hline, fun x hx y hy => pixel_inside halign (by omega) hy⟩

/-- The framebuffer that an accepted block reports is consistent exactly when the last
framebuffer tag that the conversion takes over has a width below 2 ^ 30, if there is one. -/
theorem framebuffer_consistent_iff (mem : Nat → UInt8) (mbi memmapBuf memmapCap : Nat)
    (s : Parse) (haccept : Accepted mem mbi memmapBuf memmapCap s) :
    FramebufferConsistent s.out ↔
      ∀ t, lastScreen mem (tagsOf mem mbi) = some t → t.width mem < 2 ^ 30 := by
  have hscreen : s.out.screen = screenOf mem (tagsOf mem mbi) :=
    (multiboot2_tags (screen_rule memmapBuf memmapCap) haccept).1
  unfold screenOf at hscreen
  cases hlast : lastScreen mem (tagsOf mem mbi) with
  | none =>
      rw [hlast] at hscreen
      have hbase : s.out.framebufferBase = 0 := congrArg Screen.base hscreen
      exact ⟨fun _ _ => nofun, fun _ hne => absurd hbase hne⟩
  | some t =>
      rw [hlast] at hscreen
      rw [(lastScreen_takenOver hlast).consistent_iff hscreen]
      constructor
      · intro hwidth u hu
        cases hu
        exact hwidth
      · intro h
        exact h t rfl

/-! ## A block with a framebuffer -/

/-- A block with a memory map of one entry, a framebuffer of direct colour at
{lit}`0xFD000000` and an end tag. -/
def screenBlock (pitch width height : Nat) : List UInt8 :=
  leBytes 4 96 ++ leBytes 4 0 ++
    (leBytes 4 6 ++ leBytes 4 40 ++ leBytes 4 24 ++ leBytes 4 0 ++
      (leBytes 8 0x100000 ++ leBytes 8 0x200000 ++ leBytes 4 1 ++ leBytes 4 0)) ++
    (leBytes 4 8 ++ leBytes 4 38 ++ leBytes 8 0xFD000000 ++ leBytes 4 pitch ++
      leBytes 4 width ++ leBytes 4 height ++ [32, 1, 0, 0, 16, 8, 8, 8, 0, 8, 0, 0]) ++
    (leBytes 4 0 ++ leBytes 4 8)

/-- Memory that holds the block. -/
def screenMem (pitch width height a : Nat) : UInt8 :=
  (screenBlock pitch width height).getD (a - 0x1000) 0

/-- The conversion of the block, with a buffer for two descriptors. -/
def screenParse (pitch width height : Nat) : Except Stop Unit × Parse :=
  multiboot2ToNtbli (screenMem pitch width height) 0x1000 0x8000 80
    ⟨Ntbli.start, fun _ => ⟨0, 0, 0, 0, 0, 0⟩, []⟩

theorem screenParse_accepted {pitch width height : Nat}
    (h : (screenParse pitch width height).1 = .ok ()) :
    Accepted (screenMem pitch width height) 0x1000 0x8000 80
      (screenParse pitch width height).2 := by
  cases hrun : screenParse pitch width height with
  | mk r s =>
      rw [hrun] at h
      cases h
      exact ⟨Ntbli.start, fun _ => ⟨0, 0, 0, 0, 0, 0⟩, hrun⟩

/-- A framebuffer of 1024 x 768 pixels is consistent. -/
theorem framebuffer_consistent_1024 :
    FramebufferConsistent (screenParse 4096 1024 768).2.out := by
  refine (framebuffer_consistent_iff (screenMem 4096 1024 768) 0x1000 0x8000 80 _
    (screenParse_accepted (by decide +kernel))).mpr ?_
  have hlast : lastScreen (screenMem 4096 1024 768) (tagsOf (screenMem 4096 1024 768) 0x1000) =
      some ⟨0x1030, 8, 38⟩ := by decide +kernel
  rw [hlast]
  intro t ht
  cases ht
  decide +kernel

/-- The width 2 ^ 30 makes the check of the pitch wrap: a framebuffer with lines of no pixels
and of no size is accepted. -/
theorem framebuffer_inconsistent_wide :
    ∃ s, Accepted (screenMem 0 (2 ^ 30) 1) 0x1000 0x8000 80 s ∧ s.out.framebufferBase ≠ 0 ∧
      s.out.width = 2 ^ 30 ∧ s.out.pixelsPerScanLine = 0 ∧ s.out.framebufferSize = 0 ∧
      ¬ FramebufferConsistent s.out := by
  have hbase : (screenParse 0 (2 ^ 30) 1).2.out.framebufferBase ≠ 0 := by decide +kernel
  have hwidth : (screenParse 0 (2 ^ 30) 1).2.out.width = 2 ^ 30 := by decide +kernel
  have hline : (screenParse 0 (2 ^ 30) 1).2.out.pixelsPerScanLine = 0 := by decide +kernel
  have hsize : (screenParse 0 (2 ^ 30) 1).2.out.framebufferSize = 0 := by decide +kernel
  refine ⟨_, screenParse_accepted (by decide +kernel), hbase, hwidth, hline, hsize, fun h => ?_⟩
  have hle := (h hbase).1
  rw [hwidth, hline] at hle
  omega

end Boot
end Nyxis
