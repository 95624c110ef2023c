import Nyxis.Sync.Spinlock

/-!
# The keyboard

{lit}`console/inputs/inputs_base.c` polls the keyboard controller for scan codes and turns them into
characters.  A poll is what the two ports of the controller hold when the status is read.  The file's
variables are the state of the keyboard.

Main results:

- Theorem {lit}`readAll_eq`: the characters that are read are those of the scan codes, in whatever
  polls they arrive.
- Theorem {lit}`decode_events`: they are the characters of the key events that the codes spell.
- Theorem {lit}`typed_text_read`: a text that is typed is the text that is read.
-/

namespace Nyxis
namespace Console

open Sync (ifSet cli sti irqRestore)

/-! ## The code -/

/-- {lit}`shift_l`, {lit}`shift_r`, {lit}`caps_lock` and {lit}`extended`. -/
structure Keyboard where
  shiftL : Bool
  shiftR : Bool
  capsLock : Bool
  extended : Bool
  deriving DecidableEq

/-- {lit}`normal`, up to its last character. -/
def normalTable : List UInt8 :=
  [0, 27, 49, 50, 51, 52, 53, 54, 55, 56, 57, 48, 45, 61, 8,
    9, 113, 119, 101, 114, 116, 121, 117, 105, 111, 112, 91, 93, 10,
    0, 97, 115, 100, 102, 103, 104, 106, 107, 108, 59, 39, 96,
    0, 92, 122, 120, 99, 118, 98, 110, 109, 44, 46, 47,
    0, 42, 0, 32]

/-- {lit}`shifted`, up to its last character. -/
def shiftedTable : List UInt8 :=
  [0, 27, 33, 64, 35, 36, 37, 94, 38, 42, 40, 41, 95, 43, 8,
    9, 81, 87, 69, 82, 84, 89, 85, 73, 79, 80, 123, 125, 10,
    0, 65, 83, 68, 70, 71, 72, 74, 75, 76, 58, 34, 126,
    0, 124, 90, 88, 67, 86, 66, 78, 77, 60, 62, 63,
    0, 42, 0, 32]

/-- {lit}`translate`. -/
def translate (shift capsLock : Bool) (sc : UInt8) : UInt8 :=
  if 128 ≤ sc.toNat then 0
  else
    let c := if shift = true then shiftedTable.getD sc.toNat 0 else normalTable.getD sc.toNat 0
    if capsLock = true ∧ 97 ≤ c.toNat ∧ c.toNat ≤ 122 then c - 32
    else if capsLock = true ∧ 65 ≤ c.toNat ∧ c.toNat ≤ 90 then c + 32
    else c

/-- One turn of the loop of {lit}`get_char`, with the character if it returns. -/
def keyStep (k : Keyboard) (sc : UInt8) : Keyboard × Option UInt8 :=
  if sc = 0xE0 then ({ k with extended := true }, none)
  else if sc &&& 0x80 ≠ 0 then
    let key := sc &&& 0x7F
    let k := if k.extended = false ∧ key = 42 then { k with shiftL := false } else k
    let k := if k.extended = false ∧ key = 54 then { k with shiftR := false } else k
    ({ k with extended := false }, none)
  else if k.extended = false ∧ sc = 42 then ({ k with shiftL := true }, none)
  else if k.extended = false ∧ sc = 54 then ({ k with shiftR := true }, none)
  else if k.extended = false ∧ sc = 58 then ({ k with capsLock := !k.capsLock }, none)
  else
    let c := if k.extended = true then 0 else translate (k.shiftL || k.shiftR) k.capsLock sc
    ({ k with extended := false }, if c = 0 then none else some c)

/-- The ports of the controller at one poll. -/
structure Poll where
  status : UInt8
  data : UInt8

/-- The controller has a scan code. -/
def Poll.ready (p : Poll) : Bool :=
  p.status &&& 1 != 0

/-- {lit}`get_scancode`: the scan code, the processor's flags, and the polls that are left.  It waits
for ever where the controller never gets a code. -/
def getScancode (flags : UInt64) : List Poll → Option (UInt8 × UInt64 × List Poll)
  | [] => none
  | p :: polls =>
      if p.ready = true then some (p.data, irqRestore flags (cli flags), polls)
      else getScancode (irqRestore flags (sti (cli flags))) polls

/-- {lit}`get_char`, whose loop polls the controller once in every turn at least. -/
def getChar : (fuel : Nat) → Keyboard → UInt64 → List Poll →
    Option (UInt8 × Keyboard × UInt64 × List Poll)
  | 0, _, _, _ => none
  | fuel + 1, k, flags, polls =>
      match getScancode flags polls with
      | none => none
      | some (sc, flags, polls) =>
          match keyStep k sc with
          | (k, some c) => some (c, k, flags, polls)
          | (k, none) => getChar fuel k flags polls

/-- The characters that one call of {lit}`get_char` after another returns. -/
def readAll : (fuel : Nat) → Keyboard → UInt64 → List Poll → List UInt8
  | 0, _, _, _ => []
  | fuel + 1, k, flags, polls =>
      match getChar polls.length k flags polls with
      | none => []
      | some (c, k, flags, polls) => c :: readAll fuel k flags polls

/-! ## Streams of scan codes -/

/-- The characters of a stream of scan codes, and the keyboard after it. -/
def decode (k : Keyboard) : List UInt8 → List UInt8 × Keyboard
  | [] => ([], k)
  | sc :: codes =>
      ((keyStep k sc).2.toList ++ (decode (keyStep k sc).1 codes).1, (decode (keyStep k sc).1 codes).2)

/-- The scan codes that the controller has in a sequence of polls. -/
def scanCodes (polls : List Poll) : List UInt8 :=
  (polls.filter Poll.ready).map Poll.data

variable {k : Keyboard} {flags : UInt64} {polls : List Poll}

/-- The first scan code of the polls, after which the interrupts are as they have been before the call,
unless the call has had to wait. -/
theorem getScancode_spec (flags : UInt64) (polls : List Poll) :
    (getScancode flags polls = none ∧ scanCodes polls = []) ∨
      ∃ sc flags' rest, getScancode flags polls = some (sc, flags', rest) ∧
        scanCodes polls = sc :: scanCodes rest ∧ rest.length < polls.length ∧
        (ifSet flags' = true ↔ ifSet flags = true ∨ ∃ p ∈ polls.head?, p.ready = false) := by
  induction polls generalizing flags with
  | nil => exact Or.inl ⟨rfl, rfl⟩
  | cons p polls ih =>
      rw [getScancode, scanCodes]
      cases hready : p.ready with
      | true =>
          refine Or.inr ⟨p.data, irqRestore flags (cli flags), polls, rfl, ?_, Nat.lt_succ_self _, ?_⟩
          · rw [List.filter_cons_of_pos hready, List.map_cons, scanCodes]
          · rw [Sync.ifSet_irqRestore flags (Sync.ifSet_cli flags), List.head?_cons]
            simp [hready]
      | false =>
          rw [if_neg Bool.false_ne_true, List.filter_cons_of_neg (by rw [hready]; exact Bool.false_ne_true)]
          have hset : ifSet (irqRestore flags (sti (cli flags))) = true := by
            unfold irqRestore
            split
            next => exact Sync.ifSet_sti _
            next => exact Sync.ifSet_sti _
          rcases ih (irqRestore flags (sti (cli flags))) with ⟨hnone, hcodes⟩ |
            ⟨sc, flags', rest, hsome, hcodes, hlen, hflags⟩
          · exact Or.inl ⟨hnone, hcodes⟩
          · refine Or.inr ⟨sc, flags', rest, hsome, hcodes, hlen.trans (Nat.lt_succ_self _), ?_⟩
            rw [hflags, List.head?_cons]
            simp [hset, hready]

theorem decode_none {sc : UInt8} {k' : Keyboard} (h : keyStep k sc = (k', none)) (codes : List UInt8) :
    decode k (sc :: codes) = decode k' codes := by
  rw [decode, h]
  rfl

theorem decode_some {sc c : UInt8} {k' : Keyboard} (h : keyStep k sc = (k', some c))
    (codes : List UInt8) :
    decode k (sc :: codes) = (c :: (decode k' codes).1, (decode k' codes).2) := by
  rw [decode, h]
  rfl

/-- One call of {lit}`get_char` returns the first character of the stream. -/
theorem getChar_spec (k : Keyboard) (flags : UInt64) {fuel : Nat} (hfuel : polls.length ≤ fuel) :
    (getChar fuel k flags polls = none ∧ (decode k (scanCodes polls)).1 = []) ∨
      ∃ c k' flags' rest, getChar fuel k flags polls = some (c, k', flags', rest) ∧
        decode k (scanCodes polls) =
          (c :: (decode k' (scanCodes rest)).1, (decode k' (scanCodes rest)).2) ∧
        rest.length < polls.length := by
  induction fuel generalizing k flags polls with
  | zero =>
      rw [List.eq_nil_of_length_eq_zero (Nat.le_zero.mp hfuel)]
      exact Or.inl ⟨rfl, rfl⟩
  | succ fuel ih =>
      rw [getChar]
      rcases getScancode_spec flags polls with ⟨hnone, hcodes⟩ |
        ⟨sc, flags', rest, hsome, hcodes, hlen, -⟩
      · rw [hnone, hcodes]
        exact Or.inl ⟨rfl, rfl⟩
      · rw [hsome, hcodes]
        dsimp only
        cases hstep : keyStep k sc with
        | mk k' out =>
            cases out with
            | some c => exact Or.inr ⟨c, k', flags', rest, rfl, decode_some hstep _, hlen⟩
            | none =>
                dsimp only
                rw [decode_none hstep]
                have hrest : rest.length ≤ fuel := by omega
                rcases ih k' flags' hrest with hnone | ⟨c, k'', flags'', rest', hrun, hdecode, hlen'⟩
                · exact Or.inl hnone
                · exact Or.inr ⟨c, k'', flags'', rest', hrun, hdecode, hlen'.trans hlen⟩

/-- The calls of {lit}`get_char` return the characters of the stream. -/
theorem readAll_eq (k : Keyboard) (flags : UInt64) (polls : List Poll) :
    readAll polls.length k flags polls = (decode k (scanCodes polls)).1 := by
  have hall : ∀ fuel k flags polls, polls.length ≤ fuel →
      readAll fuel k flags polls = (decode k (scanCodes polls)).1 := by
    intro fuel
    induction fuel with
    | zero =>
        intro k flags polls hfuel
        rw [List.eq_nil_of_length_eq_zero (Nat.le_zero.mp hfuel)]
        rfl
    | succ fuel ih =>
        intro k flags polls hfuel
        rw [readAll]
        rcases getChar_spec k flags (le_refl polls.length) with ⟨hnone, hdecode⟩ |
          ⟨c, k', flags', rest, hrun, hdecode, hlen⟩
        · rw [hnone, hdecode]
        · rw [hrun, hdecode]
          dsimp only
          rw [ih k' flags' rest (by omega)]
  exact hall _ k flags polls le_rfl

/-! ## Key events -/

/-- A key is pressed or released.  Extended keys have a scan code with a prefix. -/
structure KeyEvent where
  extended : Bool
  released : Bool
  key : UInt8

/-- The events that the scan codes spell. -/
def keyEvents (extended : Bool) : List UInt8 → List KeyEvent
  | [] => []
  | sc :: codes =>
      if sc = 0xE0 then keyEvents true codes
      else ⟨extended, sc &&& 0x80 != 0, sc &&& 0x7F⟩ :: keyEvents false codes

/-- The event is about a plain key. -/
def KeyEvent.isPlain (e : KeyEvent) (key : UInt8) : Bool :=
  !e.extended && e.key == key

/-- A key is down: the last event about it is not its release. -/
def isDown (key : UInt8) (before : Bool) (events : List KeyEvent) : Bool :=
  events.foldl (fun down e => if e.isPlain key = true then !e.released else down) before

/-- Caps Lock is on: it has been pressed an odd number of times, or an even number if it was on. -/
def capsOn (before : Bool) (events : List KeyEvent) : Bool :=
  before ^^ (events.countP (fun e => e.isPlain 58 && !e.released)) % 2 == 1

/-- The character of an event, after the events before it. -/
def eventChar (k : Keyboard) (before : List KeyEvent) (e : KeyEvent) : Option UInt8 :=
  if e.extended = true ∨ e.released = true ∨ e.key = 42 ∨ e.key = 54 ∨ e.key = 58 then none
  else
    let c := translate (isDown 42 k.shiftL before || isDown 54 k.shiftR before)
      (capsOn k.capsLock before) e.key
    if c = 0 then none else some c

/-- The characters of the events, after the events before them. -/
def eventChars (k : Keyboard) (before : List KeyEvent) : List KeyEvent → List UInt8
  | [] => []
  | e :: events => (eventChar k before e).toList ++ eventChars k (before ++ [e]) events

/-- The keyboard after some events, with or without a prefix that has been read. -/
def keyboardAfter (k : Keyboard) (before : List KeyEvent) (extended : Bool) : Keyboard :=
  ⟨isDown 42 k.shiftL before, isDown 54 k.shiftR before, capsOn k.capsLock before, extended⟩

theorem isDown_snoc (key : UInt8) (before : Bool) (events : List KeyEvent) (e : KeyEvent) :
    isDown key before (events ++ [e]) =
      if e.isPlain key = true then !e.released else isDown key before events := by
  rw [isDown, List.foldl_append, List.foldl_cons, List.foldl_nil]
  rfl

theorem capsOn_snoc (before : Bool) (events : List KeyEvent) (e : KeyEvent) :
    capsOn before (events ++ [e]) =
      if (e.isPlain 58 && !e.released) = true then !capsOn before events else capsOn before events := by
  rw [capsOn, capsOn, List.countP_append, List.countP_singleton]
  cases (e.isPlain 58 && !e.released) with
  | false => simp
  | true =>
      rcases Nat.mod_two_eq_zero_or_one
        (events.countP (fun e => e.isPlain 58 && !e.released)) with heven | hodd
      · have hnext : (events.countP (fun e => e.isPlain 58 && !e.released) + 1) % 2 = 1 := by omega
        simp only [if_true, heven, hnext]
        cases before <;> rfl
      · have hnext : (events.countP (fun e => e.isPlain 58 && !e.released) + 1) % 2 = 0 := by omega
        simp only [if_true, hodd, hnext]
        cases before <;> rfl

/-- The seven low bits of a code that is no release are the code. -/
theorem and_key {sc : UInt8} (h : sc &&& 0x80 = 0) : sc &&& 0x7F = sc := by
  have hzero : sc.toBitVec &&& 0x80#8 = 0#8 := congrArg UInt8.toBitVec h
  have hall : sc.toBitVec &&& (0x7F#8 ||| 0x80#8) = sc.toBitVec := by
    rw [show 0x7F#8 ||| 0x80#8 = BitVec.allOnes 8 from rfl, BitVec.and_allOnes]
  rw [BitVec.and_or_distrib_left, hzero, BitVec.or_zero] at hall
  exact UInt8.toBitVec_inj.mp hall

/-- One turn of the loop is one event. -/
theorem keyStep_event (k : Keyboard) (before : List KeyEvent) (extended : Bool) {sc : UInt8}
    (hfront : sc ≠ 0xE0) :
    keyStep (keyboardAfter k before extended) sc =
      (keyboardAfter k (before ++ [⟨extended, sc &&& 0x80 != 0, sc &&& 0x7F⟩]) false,
        eventChar k before ⟨extended, sc &&& 0x80 != 0, sc &&& 0x7F⟩) := by
  rw [keyStep, if_neg hfront, eventChar]
  unfold keyboardAfter
  rw [isDown_snoc, isDown_snoc, capsOn_snoc]
  generalize isDown 42 k.shiftL before = left
  generalize isDown 54 k.shiftR before = right
  generalize capsOn k.capsLock before = caps
  by_cases hreleased : sc &&& 0x80 = 0
  · -- the key is pressed
    have hbit : (sc &&& 0x80 != 0) = false := by
      rw [hreleased]
      rfl
    rw [if_neg (not_not.mpr hreleased), hbit, and_key hreleased]
    cases extended with
    | true => simp [KeyEvent.isPlain]
    | false =>
        by_cases hleft : sc = 42
        · subst hleft
          simp [KeyEvent.isPlain]
        by_cases hright : sc = 54
        · subst hright
          simp [KeyEvent.isPlain]
        by_cases hcaps : sc = 58
        · subst hcaps
          simp [KeyEvent.isPlain]
        simp [KeyEvent.isPlain, hleft, hright, hcaps]
  · have hbit : (sc &&& 0x80 != 0) = true := bne_iff_ne.mpr hreleased
    rw [if_pos hreleased, hbit]
    generalize sc &&& 0x7F = key
    cases extended with
    | true => simp [KeyEvent.isPlain]
    | false =>
        by_cases hleft : key = 42
        · subst hleft
          simp [KeyEvent.isPlain]
        by_cases hright : key = 54
        · subst hright
          simp [KeyEvent.isPlain]
        simp [KeyEvent.isPlain, hleft, hright]

/-- The characters of a stream of scan codes are the characters of its key events, and the keyboard
after it has the keys down that the events leave down. -/
theorem decode_events (k : Keyboard) (before : List KeyEvent) (extended : Bool) (codes : List UInt8) :
    (decode (keyboardAfter k before extended) codes).1 =
      eventChars k before (keyEvents extended codes) := by
  induction codes generalizing before extended with
  | nil => rfl
  | cons sc codes ih =>
      rw [keyEvents]
      by_cases hfront : sc = 0xE0
      · subst hfront
        have hstep : keyStep (keyboardAfter k before extended) 0xE0 = (keyboardAfter k before true, none) :=
          rfl
        rw [if_pos rfl, decode_none hstep, ih]
      · rw [if_neg hfront, decode, keyStep_event k before extended hfront, eventChars]
        dsimp only
        rw [ih]

/-- What the calls of {lit}`get_char` return, whatever the keyboard has been through before: for every
press of a plain key that has a character, that character, with shift if one of the two shift keys is
down at this moment, and with the case turned if Caps Lock is on; and nothing for a release or an
extended key. -/
theorem readAll_events (k : Keyboard) (flags : UInt64) (polls : List Poll) :
    readAll polls.length k flags polls = eventChars k [] (keyEvents k.extended (scanCodes polls)) := by
  have hnow : keyboardAfter k [] k.extended = k := by
    rw [keyboardAfter, capsOn, List.countP_nil]
    cases k with
    | mk shiftL shiftR capsLock extended => cases capsLock <;> rfl
  rw [readAll_eq, ← decode_events, hnow]

/-! ## Typing -/

/-- The characters that the tables have. -/
def typable (c : UInt8) : Bool :=
  c = 8 || c = 9 || c = 10 || c = 27 || (32 ≤ c.toNat && c.toNat ≤ 126)

/-- The keys that have characters. -/
def charKeys : List UInt8 :=
  ((List.range 58).map UInt8.ofNat).filter (fun sc => sc ≠ 42 && sc ≠ 54)

/-- A key for a character, with or without shift. -/
def keyFor (capsLock : Bool) (c : UInt8) : Option (Bool × UInt8) :=
  match charKeys.find? (fun sc => translate false capsLock sc = c) with
  | some sc => some (false, sc)
  | none => (charKeys.find? (fun sc => translate true capsLock sc = c)).map (fun sc => (true, sc))

/-- The scan codes of a key that is pressed and released, with or without shift. -/
def strokes (shift : Bool) (sc : UInt8) : List UInt8 :=
  if shift = true then [42, sc, sc ||| 0x80, 42 ||| 0x80] else [sc, sc ||| 0x80]

/-- The scan codes of a text. -/
def typeText (capsLock : Bool) (text : List UInt8) : List UInt8 :=
  text.flatMap (fun c =>
    match keyFor capsLock c with
    | some (shift, sc) => strokes shift sc
    | none => [])

/-- Every one of the characters has a key, with Caps Lock on or off. -/
theorem keyFor_some (capsLock : Bool) {c : UInt8} (hc : typable c = true) :
    ∃ shift sc, keyFor capsLock c = some (shift, sc) := by
  have hall : ∀ capsLock, ∀ n < 256, typable (UInt8.ofNat n) = true →
      (keyFor capsLock (UInt8.ofNat n)).isSome = true := by
    decide +kernel
  have hsome := hall capsLock c.toNat c.toNat_lt (by rw [UInt8.ofNat_toNat]; exact hc)
  rw [UInt8.ofNat_toNat] at hsome
  obtain ⟨⟨shift, sc⟩, heq⟩ := Option.isSome_iff_exists.mp hsome
  exact ⟨shift, sc, heq⟩

theorem keyFor_spec {capsLock shift : Bool} {c sc : UInt8} (h : keyFor capsLock c = some (shift, sc)) :
    sc ∈ charKeys ∧ translate shift capsLock sc = c := by
  rw [keyFor] at h
  cases hplain : charKeys.find? (fun sc => translate false capsLock sc = c) with
  | some found =>
      rw [hplain] at h
      cases h
      have hfound := List.find?_some hplain
      exact ⟨List.mem_of_find?_eq_some hplain, of_decide_eq_true hfound⟩
  | none =>
      rw [hplain] at h
      obtain ⟨found, hshift, heq⟩ := Option.map_eq_some_iff.mp h
      cases heq
      have hfound := List.find?_some hshift
      exact ⟨List.mem_of_find?_eq_some hshift, of_decide_eq_true hfound⟩

theorem decode_append (k : Keyboard) (codes more : List UInt8) :
    decode k (codes ++ more) =
      ((decode k codes).1 ++ (decode (decode k codes).2 more).1, (decode (decode k codes).2 more).2) := by
  induction codes generalizing k with
  | nil => rfl
  | cons sc codes ih =>
      rw [List.cons_append, decode, decode, ih]
      dsimp only
      rw [List.append_assoc]

/-- A keyboard on which nothing is held. -/
def released (capsLock : Bool) : Keyboard :=
  ⟨false, false, capsLock, false⟩

/-- One stroke gives the character of its key and leaves nothing held. -/
theorem decode_strokes (capsLock shift : Bool) {sc : UInt8} (hsc : sc ∈ charKeys) :
    decode (released capsLock) (strokes shift sc) =
      (if translate shift capsLock sc = 0 then [] else [translate shift capsLock sc],
        released capsLock) := by
  have hall : ∀ capsLock shift, ∀ sc ∈ charKeys, decode (released capsLock) (strokes shift sc) =
      (if translate shift capsLock sc = 0 then [] else [translate shift capsLock sc],
        released capsLock) := by
    decide +kernel
  exact hall capsLock shift sc hsc

/-- A text that is typed, with Caps Lock on or off, is the text that the calls of {lit}`get_char`
return, in whatever polls the scan codes arrive. -/
theorem typed_text_read (capsLock : Bool) {text : List UInt8} (htext : ∀ c ∈ text, typable c = true)
    (flags : UInt64) {polls : List Poll} (hpolls : scanCodes polls = typeText capsLock text) :
    readAll polls.length (released capsLock) flags polls = text := by
  rw [readAll_eq, hpolls]
  have hdecode : decode (released capsLock) (typeText capsLock text) = (text, released capsLock) := by
    clear hpolls
    induction text with
    | nil => rfl
    | cons c text ih =>
        have hc := htext c List.mem_cons_self
        obtain ⟨shift, sc, hkey⟩ := keyFor_some capsLock hc
        obtain ⟨hmem, htranslate⟩ := keyFor_spec hkey
        have hne : c ≠ 0 := by
          rintro rfl
          exact absurd hc (by decide)
        have hcodes : typeText capsLock (c :: text) = strokes shift sc ++ typeText capsLock text := by
          rw [typeText, List.flatMap_cons, hkey]
          rfl
        rw [hcodes, decode_append, decode_strokes capsLock shift hmem, htranslate, if_neg hne,
          ih (fun x hx => htext x (List.mem_cons_of_mem c hx))]
        rfl
  rw [hdecode]

/-- A capital letter and a mark, with waits between the scan codes. -/
theorem typed_text_read_hi : readAll 9 (released true) 0
    [⟨0, 0⟩, ⟨1, 35⟩, ⟨1, 163⟩, ⟨0, 35⟩, ⟨1, 42⟩, ⟨1, 2⟩, ⟨0x15, 130⟩, ⟨4, 0⟩, ⟨1, 170⟩] = [72, 33] :=
  @typed_text_read true [72, 33] (by decide +kernel) 0 [⟨0, 0⟩, ⟨1, 35⟩, ⟨1, 163⟩, ⟨0, 35⟩, ⟨1, 42⟩,
    ⟨1, 2⟩, ⟨0x15, 130⟩, ⟨4, 0⟩, ⟨1, 170⟩] (by decide +kernel)

end Console
end Nyxis
