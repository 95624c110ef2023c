import Mathlib.Data.Nat.Digits.Lemmas
import Mathlib.Tactic.Common
import Mathlib.Tactic.SplitIfs

/-!
# The format strings of the kernel log

{lit}`printk_vformat` of {lit}`console/outputs/printk.c` reads a format string and its arguments and
hands the characters of the message to {lit}`printk_putc` one after another.  The functions here
compute the list of these characters.

A format string is the list of its bytes before the terminating zero.  An argument is one 64-bit slot
of the argument list, and the text that a pointer argument leads to is a parameter.  A format that
reads an argument that has not been passed has no result.

Main results:

- Theorem {lit}`printkVformat_render`: the message of a format is made of the messages of its parts.
- Theorem {lit}`number_reads_back`: a printed number reads back, and fills its field.
-/

namespace Nyxis
namespace Console

/-! ## The code -/

/-- {lit}`"0123456789ABCDEF"[i]` or {lit}`"0123456789abcdef"[i]`. -/
def digitOf (upper : Bool) (i : Nat) : UInt8 :=
  if i < 10 then UInt8.ofNat (48 + i)
  else if upper = true then UInt8.ofNat (55 + i) else UInt8.ofNat (87 + i)

/-- The loop of {lit}`print_number` that fills {lit}`tmp`, which has room for some more digits. -/
def digitsLoop (base : Nat) (upper : Bool) : (room : Nat) → (value : Nat) → List UInt8
  | 0, _ => []
  | room + 1, value =>
      if 0 < value then digitOf upper (value % base) :: digitsLoop base upper room (value / base)
      else []

/-- The loop that prints a character while the width is greater than the length. -/
def padLoop (c : UInt8) (len : Nat) : (width : Nat) → List UInt8
  | 0 => []
  | width + 1 => if len < width + 1 then c :: padLoop c len width else []

/-- {lit}`sizeof(tmp)`. -/
def tmpSize : Nat := 24

/-- {lit}`print_number`. -/
def printNumber (value base : Nat) (upper : Bool) (width : Nat) (padZero neg : Bool) : List UInt8 :=
  let tmp := if value = 0 then [48] else digitsLoop base upper tmpSize value
  let total := tmp.length + if neg = true then 1 else 0
  (if neg = true ∧ padZero = true then [45] else []) ++
    padLoop (if padZero = true then 48 else 32) total width ++
    (if neg = true ∧ padZero = false then [45] else []) ++ tmp.reverse

/-- {lit}`print_unsigned`. -/
def printUnsigned (value base : Nat) (upper : Bool) (width : Nat) (padZero : Bool) : List UInt8 :=
  printNumber value base upper width padZero false

/-- {lit}`print_signed` of a 64-bit pattern. -/
def printSigned (value : BitVec 64) (width : Nat) (padZero : Bool) : List UInt8 :=
  if value.toInt < 0 then printNumber (0 - value).toNat 10 false width padZero true
  else printNumber value.toNat 10 false width padZero false

/-- {lit}`print_string`. -/
def printString (s : List UInt8) (width : Nat) : List UInt8 :=
  padLoop 32 s.length width ++ s

/-- {lit}`"(null)"`. -/
def nullText : List UInt8 := [40, 110, 117, 108, 108, 41]

/-- The greatest width. -/
def maxWidth : Nat := 64

/-- A decimal digit. -/
def isDigit (c : UInt8) : Bool :=
  48 ≤ c.toNat && c.toNat ≤ 57

/-- The flag of a conversion. -/
def flagStep : List UInt8 → Bool × List UInt8
  | 48 :: rest => (true, rest)
  | rest => (false, rest)

/-- The loop that reads the width. -/
def widthLoop (width : Nat) : List UInt8 → Nat × List UInt8
  | [] => (width, [])
  | c :: rest =>
      if isDigit c = true then
        let width' := width * 10 + (c.toNat - 48)
        widthLoop (if maxWidth < width' then maxWidth else width') rest
      else (width, c :: rest)

/-- The loop that counts the length modifiers. -/
def lengthLoop (longness : UInt32) : List UInt8 → UInt32 × List UInt8
  | [] => (longness, [])
  | c :: rest =>
      if c = 108 ∨ c = 122 then lengthLoop (longness + 1) rest else (longness, c :: rest)

/-- The next argument, sign-extended from 32 bits unless a length modifier has been read. -/
def signedArg (longness : UInt32) (arg : BitVec 64) : BitVec 64 :=
  if longness ≠ 0 then arg else (arg.setWidth 32).signExtend 64

/-- The next argument, zero-extended from 32 bits unless a length modifier has been read. -/
def unsignedArg (longness : UInt32) (arg : BitVec 64) : Nat :=
  if longness ≠ 0 then arg.toNat else (arg.setWidth 32).toNat

/-- What a conversion that takes an argument prints, or nothing for another character. -/
def convertArg (text : BitVec 64 → List UInt8) (spec : UInt8) (padZero : Bool) (width : Nat)
    (longness : UInt32) (arg : BitVec 64) : Option (List UInt8) :=
  if spec = 99 then some [UInt8.ofNat (arg.setWidth 8).toNat]
  else if spec = 115 then some (printString (if arg = 0 then nullText else text arg) width)
  else if spec = 100 ∨ spec = 105 then some (printSigned (signedArg longness arg) width padZero)
  else if spec = 117 then some (printUnsigned (unsignedArg longness arg) 10 false width padZero)
  else if spec = 120 ∨ spec = 88 then
    some (printUnsigned (unsignedArg longness arg) 16 (spec = 88) width padZero)
  else if spec = 112 then some ([48, 120] ++ printUnsigned arg.toNat 16 false 16 true)
  else if spec = 114 then some ([48, 120] ++ printUnsigned (arg.setWidth 32).toNat 16 false 8 true)
  else none

/-- A character that takes an argument. -/
def takesArg (spec : UInt8) : Bool :=
  spec = 99 || spec = 115 || spec = 100 || spec = 105 || spec = 117 || spec = 120 || spec = 88 ||
    spec = 112 || spec = 114

/-- The switch over the character of a conversion: what is printed, and the arguments that are left. -/
def convert (text : BitVec 64 → List UInt8) (spec : UInt8) (padZero : Bool) (width : Nat)
    (longness : UInt32) (args : List (BitVec 64)) : Option (List UInt8 × List (BitVec 64)) :=
  if spec = 37 then some ([37], args)
  else if takesArg spec = true then
    match args with
    | [] => none
    | arg :: args => (convertArg text spec padZero width longness arg).map (fun out => (out, args))
  else some ([37, spec], args)

/-- The loop of {lit}`printk_vformat`. -/
def formatLoop (text : BitVec 64 → List UInt8) :
    (fuel : Nat) → List UInt8 → List (BitVec 64) → Option (List UInt8)
  | 0, _, _ => some []
  | _ + 1, [], _ => some []
  | fuel + 1, c :: rest, args =>
      if c ≠ 37 then (formatLoop text fuel rest args).map (fun out => c :: out)
      else
        let (padZero, rest) := flagStep rest
        let (width, rest) := widthLoop 0 rest
        let (longness, rest) := lengthLoop 0 rest
        match rest with
        | [] => some [37]
        | spec :: rest =>
            match convert text spec padZero width longness args with
            | none => none
            | some (out, args) => (formatLoop text fuel rest args).map (fun more => out ++ more)

/-- {lit}`printk_vformat`, whose loop reads a character of the format in every turn. -/
def printkVformat (text : BitVec 64 → List UInt8) (format : List UInt8) (args : List (BitVec 64)) :
    Option (List UInt8) :=
  formatLoop text format.length format args

/-- {lit}`printk_write`: what is not a printable character is replaced. -/
def printkWrite (buf : List UInt8) : List UInt8 :=
  buf.map (fun c =>
    if c = 10 ∨ c = 13 ∨ c = 9 ∨ (32 ≤ c.toNat ∧ c.toNat ≤ 126) then c else 63)

/-! ## What a format means -/

/-- The digits of a number, the most significant one first. -/
def numeral (base : Nat) (upper : Bool) (n : Nat) : List UInt8 :=
  if n = 0 then [48] else ((Nat.digits base n).map (digitOf upper)).reverse

/-- A number in a field of some width: blanks come before the sign, zeros after it. -/
def numberField (base : Nat) (upper : Bool) (width : Nat) (padZero neg : Bool) (n : Nat) :
    List UInt8 :=
  let sign : List UInt8 := if neg = true then [45] else []
  let fill := width - (sign.length + (numeral base upper n).length)
  if padZero = true then sign ++ List.replicate fill 48 ++ numeral base upper n
  else List.replicate fill 32 ++ sign ++ numeral base upper n

/-- The conversions that take an argument. -/
inductive Conv where
  | char
  | string
  /-- {lit}`%d` or {lit}`%i`. -/
  | signed (integer : Bool)
  | unsigned
  | hex (upper : Bool)
  | pointer
  | status

/-- The character of a conversion. -/
def Conv.letter : Conv → UInt8
  | .char => 99
  | .string => 115
  | .signed integer => if integer = true then 105 else 100
  | .unsigned => 117
  | .hex upper => if upper = true then 88 else 120
  | .pointer => 112
  | .status => 114

/-- A part of a format string. -/
inductive Item where
  | text (c : UInt8)
  | percent
  | field (padZero : Bool) (width : Nat) (modifiers : List UInt8) (conv : Conv)

/-- How a part is written. -/
def Item.render : Item → List UInt8
  | .text c => [c]
  | .percent => [37, 37]
  | .field padZero width modifiers conv =>
      37 :: ((if padZero = true then [48] else []) ++ (if width = 0 then [] else numeral 10 false width) ++
        modifiers ++ [conv.letter])

/-- Text is not a percent sign, and the modifiers are letters that the formatter knows. -/
def Item.Ok : Item → Prop
  | .text c => c ≠ 37
  | .percent => True
  | .field _ _ modifiers _ => (∀ c ∈ modifiers, c = 108 ∨ c = 122) ∧ modifiers.length < 2 ^ 32

/-- The message of a conversion. -/
def Conv.message (text : BitVec 64 → List UInt8) (padZero : Bool) (width : Nat) (long : Bool)
    (arg : BitVec 64) : Conv → List UInt8
  | .char => [UInt8.ofNat (arg.setWidth 8).toNat]
  | .string =>
      let s := if arg = 0 then nullText else text arg
      List.replicate (width - s.length) 32 ++ s
  | .signed _ =>
      let value := (if long = true then arg else (arg.setWidth 32).signExtend 64).toInt
      numberField 10 false width padZero (value < 0) value.natAbs
  | .unsigned =>
      numberField 10 false width padZero false
        (if long = true then arg.toNat else (arg.setWidth 32).toNat)
  | .hex upper =>
      numberField 16 upper width padZero false
        (if long = true then arg.toNat else (arg.setWidth 32).toNat)
  | .pointer => [48, 120] ++ numberField 16 false 16 true false arg.toNat
  | .status => [48, 120] ++ numberField 16 false 8 true false (arg.setWidth 32).toNat

/-- The message of a format. -/
def messages (text : BitVec 64 → List UInt8) : List Item → List (BitVec 64) → List UInt8
  | [], _ => []
  | .text c :: items, args => c :: messages text items args
  | .percent :: items, args => 37 :: messages text items args
  | .field _ _ _ _ :: _, [] => []
  | .field padZero width modifiers conv :: items, arg :: args =>
      conv.message text padZero (min maxWidth width) (!modifiers.isEmpty) arg ++
        messages text items args

/-- The number of arguments that a format takes. -/
def fields : List Item → Nat
  | [] => 0
  | .field _ _ _ _ :: items => fields items + 1
  | _ :: items => fields items

/-! ## Numbers -/

theorem padLoop_eq (c : UInt8) (len width : Nat) :
    padLoop c len width = List.replicate (width - len) c := by
  induction width with
  | zero => rw [padLoop, Nat.zero_sub, List.replicate_zero]
  | succ width ih =>
      rw [padLoop]
      split
      next hlt => rw [ih, Nat.succ_sub (Nat.le_of_lt_succ hlt), List.replicate_succ]
      next hle => rw [Nat.sub_eq_zero_of_le (Nat.le_of_not_lt hle), List.replicate_zero]

/-- The loop stores the digits from the least significant one, as long as there is room. -/
theorem digitsLoop_eq {base : Nat} (hbase : 1 < base) (upper : Bool) {room value : Nat}
    (hroom : value < base ^ room) :
    digitsLoop base upper room value = (Nat.digits base value).map (digitOf upper) := by
  induction room generalizing value with
  | zero =>
      rw [pow_zero, Nat.lt_one_iff] at hroom
      rw [digitsLoop, hroom, Nat.digits_zero, List.map_nil]
  | succ room ih =>
      rw [digitsLoop]
      split
      next hpos =>
        rw [Nat.digits_def' hbase hpos, List.map_cons, ih]
        rw [pow_succ] at hroom
        exact Nat.div_lt_of_lt_mul (Nat.mul_comm _ _ ▸ hroom)
      next hzero =>
        rw [Nat.eq_zero_of_not_pos hzero, Nat.digits_zero, List.map_nil]

/-- The room of {lit}`tmp` is enough for every 64-bit value. -/
theorem lt_base_pow {base value : Nat} (hbase : 10 ≤ base) (hvalue : value < 2 ^ 64) :
    value < base ^ tmpSize :=
  hvalue.trans_le ((by decide : 2 ^ 64 ≤ 10 ^ tmpSize).trans (Nat.pow_le_pow_left hbase tmpSize))

theorem printNumber_eq {base value : Nat} (hbase : 10 ≤ base) (hvalue : value < 2 ^ 64) (upper : Bool)
    (width : Nat) (padZero neg : Bool) :
    printNumber value base upper width padZero neg =
      numberField base upper width padZero neg value := by
  have htmp : (if value = 0 then [48] else digitsLoop base upper tmpSize value).reverse =
      numeral base upper value := by
    rw [numeral]
    split
    next => rfl
    next =>
      rw [digitsLoop_eq (Nat.lt_of_lt_of_le (by decide) hbase) upper (lt_base_pow hbase hvalue)]
  have hlen : (if value = 0 then [48] else digitsLoop base upper tmpSize value).length =
      (numeral base upper value).length := by
    rw [← htmp, List.length_reverse]
  rw [printNumber, numberField]
  rw [htmp, hlen, padLoop_eq, Nat.add_comm (numeral base upper value).length]
  cases neg with
  | false => cases padZero <;> simp
  | true => cases padZero <;> simp

theorem printString_eq (s : List UInt8) (width : Nat) :
    printString s width = List.replicate (width - s.length) 32 ++ s := by
  rw [printString, padLoop_eq]

theorem printSigned_eq (value : BitVec 64) (width : Nat) (padZero : Bool) :
    printSigned value width padZero =
      numberField 10 false width padZero (value.toInt < 0) value.toInt.natAbs := by
  have hlt := value.isLt
  rw [printSigned]
  split
  next hneg =>
    have habs : (0 - value).toNat = value.toInt.natAbs := by
      rw [BitVec.toInt_eq_toNat_cond] at hneg ⊢
      rw [BitVec.toNat_sub, show BitVec.toNat (0 : BitVec 64) = 0 from rfl]
      split at hneg <;> omega
    rw [printNumber_eq (by decide) (BitVec.isLt _), habs, decide_eq_true hneg]
  next hpos =>
    have habs : value.toNat = value.toInt.natAbs := by
      rw [BitVec.toInt_eq_toNat_cond] at hpos ⊢
      split at hpos <;> omega
    rw [printNumber_eq (by decide) hlt, habs, decide_eq_false hpos]

/-! ## Reading a conversion -/

theorem toNat_digitOf {upper : Bool} {i : Nat} (hi : i < 16) :
    (digitOf upper i).toNat = if i < 10 then 48 + i else if upper = true then 55 + i else 87 + i := by
  rw [digitOf]
  split
  next => exact UInt8.toNat_ofNat_of_lt (by rw [UInt8.size]; omega)
  next =>
    split
    next => exact UInt8.toNat_ofNat_of_lt (by rw [UInt8.size]; omega)
    next => exact UInt8.toNat_ofNat_of_lt (by rw [UInt8.size]; omega)

theorem isDigit_digitOf {i : Nat} (hi : i < 10) : isDigit (digitOf false i) = true := by
  rw [isDigit, toNat_digitOf (Nat.lt_of_lt_of_le hi (by decide)), if_pos hi, Bool.and_eq_true,
    decide_eq_true_eq, decide_eq_true_eq]
  omega

/-- The digits of a positive number begin with its leading digit, which is not zero. -/
theorem numeral_cons {n : Nat} (hn : n ≠ 0) :
    ∃ c rest, numeral 10 false n = c :: rest ∧ c ≠ 48 ∧ ∀ x ∈ c :: rest, isDigit x = true := by
  have hne : Nat.digits 10 n ≠ [] := Nat.digits_ne_nil_iff_ne_zero.mpr hn
  have hlast := Nat.getLast_digit_ne_zero 10 hn
  have hlt : (Nat.digits 10 n).getLast hne < 10 := Nat.digits_lt_base (by decide) (List.getLast_mem hne)
  have hsplit := List.dropLast_append_getLast hne
  refine ⟨digitOf false ((Nat.digits 10 n).getLast hne),
    ((Nat.digits 10 n).dropLast.map (digitOf false)).reverse, ?_, ?_, ?_⟩
  · rw [numeral, if_neg hn]
    conv_lhs => rw [← hsplit]
    rw [List.map_append, List.reverse_append]
    rfl
  · intro hzero
    have htoNat := congrArg UInt8.toNat hzero
    rw [toNat_digitOf (hlt.trans (by decide)), if_pos hlt] at htoNat
    change 48 + _ = 48 at htoNat
    omega
  · intro x hx
    rcases List.mem_cons.mp hx with rfl | hmem
    · exact isDigit_digitOf hlt
    · rw [List.mem_reverse, List.mem_map] at hmem
      obtain ⟨i, hi, rfl⟩ := hmem
      exact isDigit_digitOf (Nat.digits_lt_base (by decide) (List.mem_of_mem_dropLast hi))

/-- The value of a decimal numeral, read from the left. -/
def readWidth (width : Nat) (cs : List UInt8) : Nat :=
  cs.foldl (fun n c => n * 10 + (c.toNat - 48)) width

/-- The loop caps the width in every turn, which is the same as to cap it at the end. -/
theorem widthLoop_eq {cs rest : List UInt8} (hdigits : ∀ c ∈ cs, isDigit c = true)
    (hrest : ∀ c, rest.head? = some c → isDigit c = false) (width : Nat) :
    widthLoop (min maxWidth width) (cs ++ rest) = (min maxWidth (readWidth width cs), rest) := by
  induction cs generalizing width with
  | nil =>
      rw [List.nil_append, readWidth, List.foldl_nil]
      cases rest with
      | nil => rfl
      | cons c rest =>
          rw [widthLoop, if_neg]
          rw [hrest c rfl]
          exact Bool.false_ne_true
  | cons c cs ih =>
      rw [List.cons_append, widthLoop, if_pos (hdigits c List.mem_cons_self)]
      have hcap : (if maxWidth < min maxWidth width * 10 + (c.toNat - 48) then maxWidth
          else min maxWidth width * 10 + (c.toNat - 48)) =
          min maxWidth (width * 10 + (c.toNat - 48)) := by
        rw [maxWidth]
        split <;> omega
      dsimp only
      rw [hcap, ih (fun x hx => hdigits x (List.mem_cons_of_mem c hx))]
      rfl

/-- Reading the digits of a number from the least significant one. -/
theorem readWidth_digits (ds : List Nat) (hds : ∀ d ∈ ds, d < 10) :
    readWidth 0 (ds.map (digitOf false)).reverse = Nat.ofDigits 10 ds := by
  rw [readWidth, List.foldl_reverse]
  induction ds with
  | nil => rfl
  | cons d ds ih =>
      have hd := hds d List.mem_cons_self
      rw [List.map_cons, List.foldr_cons, ih (fun x hx => hds x (List.mem_cons_of_mem d hx)),
        toNat_digitOf (hd.trans (by decide)), if_pos hd, Nat.ofDigits_cons]
      omega

theorem lengthLoop_eq {cs rest : List UInt8} (hcs : ∀ c ∈ cs, c = 108 ∨ c = 122)
    (hrest : ∀ c, rest.head? = some c → ¬(c = 108 ∨ c = 122)) (longness : UInt32) :
    lengthLoop longness (cs ++ rest) = (longness + UInt32.ofNat cs.length, rest) := by
  induction cs generalizing longness with
  | nil =>
      rw [List.nil_append]
      cases rest with
      | nil => rw [lengthLoop]; simp
      | cons c rest => rw [lengthLoop, if_neg (hrest c rfl)]; simp
  | cons c cs ih =>
      rw [List.cons_append, lengthLoop, if_pos (hcs c List.mem_cons_self),
        ih (fun x hx => hcs x (List.mem_cons_of_mem c hx)), List.length_cons, UInt32.ofNat_add,
        UInt32.add_assoc, UInt32.add_comm 1]
      rfl

/-- The letters of the conversions. -/
theorem Conv.letter_plain (conv : Conv) :
    isDigit conv.letter = false ∧ conv.letter ≠ 108 ∧ conv.letter ≠ 122 ∧ conv.letter ≠ 37 ∧
      takesArg conv.letter = true := by
  cases conv with
  | char => decide
  | string => decide
  | signed integer => cases integer <;> decide
  | unsigned => decide
  | hex upper => cases upper <;> decide
  | pointer => decide
  | status => decide

theorem longness_ne_zero {modifiers : List UInt8} (h : modifiers.length < 2 ^ 32) :
    (0 + UInt32.ofNat modifiers.length ≠ 0) ↔ (!modifiers.isEmpty) = true := by
  rw [UInt32.zero_add, Bool.not_eq_true', List.isEmpty_eq_false_iff, ne_eq, not_iff_not]
  constructor
  · intro hzero
    have hlen := congrArg UInt32.toNat hzero
    rw [UInt32.toNat_ofNat_of_lt' h] at hlen
    exact List.eq_nil_of_length_eq_zero hlen
  · rintro rfl
    rfl

/-- What a conversion prints. -/
theorem convertArg_eq (text : BitVec 64 → List UInt8) (conv : Conv) (padZero : Bool) (width : Nat)
    {modifiers : List UInt8} (h : modifiers.length < 2 ^ 32) (arg : BitVec 64) :
    convertArg text conv.letter padZero width (0 + UInt32.ofNat modifiers.length) arg =
      some (conv.message text padZero width (!modifiers.isEmpty) arg) := by
  have hunsigned : unsignedArg (0 + UInt32.ofNat modifiers.length) arg =
      if (!modifiers.isEmpty) = true then arg.toNat else (arg.setWidth 32).toNat := by
    rw [unsignedArg]
    exact if_congr (longness_ne_zero h) rfl rfl
  have hlt : unsignedArg (0 + UInt32.ofNat modifiers.length) arg < 2 ^ 64 := by
    rw [unsignedArg]
    split
    next => exact arg.isLt
    next => exact (arg.setWidth 32).isLt.trans (by decide)
  cases conv with
  | char => rfl
  | string =>
      change some (printString _ width) = _
      rw [printString_eq]
      rfl
  | signed integer =>
      have hstep : convertArg text (Conv.signed integer).letter padZero width
          (0 + UInt32.ofNat modifiers.length) arg =
            some (printSigned (signedArg (0 + UInt32.ofNat modifiers.length) arg) width padZero) := by
        cases integer <;> rfl
      rw [hstep, printSigned_eq, signedArg, if_congr (longness_ne_zero h) rfl rfl]
      rfl
  | unsigned =>
      change some (printNumber _ 10 false width padZero false) = _
      rw [printNumber_eq (by decide) hlt, hunsigned]
      rfl
  | hex upper =>
      have hstep : convertArg text (Conv.hex upper).letter padZero width
          (0 + UInt32.ofNat modifiers.length) arg =
            some (printNumber (unsignedArg (0 + UInt32.ofNat modifiers.length) arg) 16 upper width padZero
              false) := by
        cases upper <;> rfl
      rw [hstep, printNumber_eq (by decide) hlt, hunsigned]
      rfl
  | pointer =>
      change some ([48, 120] ++ printNumber arg.toNat 16 false 16 true false) = _
      rw [printNumber_eq (by decide) arg.isLt]
      rfl
  | status =>
      change some ([48, 120] ++ printNumber (arg.setWidth 32).toNat 16 false 8 true false) = _
      rw [printNumber_eq (by decide) ((arg.setWidth 32).isLt.trans (by decide))]
      rfl

/-- The flag and the width of a rendered conversion. -/
theorem flagStep_render (padZero : Bool) (width : Nat) {rest : List UInt8}
    (hrest : ∀ c, rest.head? = some c → isDigit c = false) :
    flagStep ((if padZero = true then [48] else []) ++
      ((if width = 0 then [] else numeral 10 false width) ++ rest)) =
        (padZero, (if width = 0 then [] else numeral 10 false width) ++ rest) := by
  cases padZero with
  | true => rfl
  | false =>
      rw [if_neg Bool.false_ne_true, List.nil_append]
      by_cases hwidth : width = 0
      · rw [if_pos hwidth, List.nil_append]
        cases rest with
        | nil => rfl
        | cons c rest =>
            have hc := hrest c rfl
            have hne : c ≠ 48 := by
              rintro rfl
              cases hc
            rw [flagStep]
            exact fun _ heq => hne (List.cons.inj heq).1
      · obtain ⟨c, more, heq, hne, -⟩ := numeral_cons hwidth
        rw [if_neg hwidth, heq, List.cons_append, flagStep]
        exact fun _ hno => hne (List.cons.inj hno).1

theorem widthLoop_render (width : Nat) {rest : List UInt8}
    (hrest : ∀ c, rest.head? = some c → isDigit c = false) :
    widthLoop 0 ((if width = 0 then [] else numeral 10 false width) ++ rest) =
      (min maxWidth width, rest) := by
  have hzero : 0 = min maxWidth 0 := (Nat.min_zero _).symm
  by_cases hwidth : width = 0
  · rw [if_pos hwidth]
    conv_lhs => rw [hzero]
    rw [widthLoop_eq (fun c hc => by cases hc) hrest 0, hwidth]
    rfl
  · rw [if_neg hwidth]
    obtain ⟨c, more, heq, -, hdigits⟩ := numeral_cons hwidth
    have hread : readWidth 0 (numeral 10 false width) = width := by
      rw [numeral, if_neg hwidth, readWidth_digits _ (fun d hd => Nat.digits_lt_base (by decide) hd),
        Nat.ofDigits_digits]
    conv_lhs => rw [hzero]
    rw [widthLoop_eq (by rw [heq]; exact hdigits) hrest 0, hread]

/-- The turns of the loop for one part of the format. -/
theorem formatLoop_item (text : BitVec 64 → List UInt8) {fuel : Nat} {padZero : Bool} {width : Nat}
    {modifiers : List UInt8} {conv : Conv} (hok : (Item.field padZero width modifiers conv).Ok)
    (rest : List UInt8) (arg : BitVec 64) (args : List (BitVec 64)) :
    formatLoop text (fuel + 1) ((Item.field padZero width modifiers conv).render ++ rest) (arg :: args) =
      (formatLoop text fuel rest args).map (fun more =>
        conv.message text padZero (min maxWidth width) (!modifiers.isEmpty) arg ++ more) := by
  obtain ⟨hmodifiers, hlength⟩ := hok
  obtain ⟨hletter, hl, hz, hpercent, htakes⟩ := conv.letter_plain
  have hhead : ∀ c, (modifiers ++ conv.letter :: rest).head? = some c → isDigit c = false := by
    intro c hc
    cases modifiers with
    | nil =>
        cases hc
        exact hletter
    | cons m modifiers =>
        cases hc
        rcases hmodifiers c List.mem_cons_self with rfl | rfl
        · decide
        · decide
  have hformat : (Item.field padZero width modifiers conv).render ++ rest =
      37 :: ((if padZero = true then [48] else []) ++
        ((if width = 0 then [] else numeral 10 false width) ++ (modifiers ++ conv.letter :: rest))) := by
    rw [Item.render]
    simp only [List.cons_append, List.append_assoc, List.nil_append]
  have hplain : ∀ c, (conv.letter :: rest).head? = some c → ¬(c = 108 ∨ c = 122) := by
    intro c hc
    cases hc
    exact not_or.mpr ⟨hl, hz⟩
  have hconvert : convert text conv.letter padZero (min maxWidth width)
      (0 + UInt32.ofNat modifiers.length) (arg :: args) =
        some (conv.message text padZero (min maxWidth width) (!modifiers.isEmpty) arg, args) := by
    rw [convert, if_neg hpercent, if_pos htakes, convertArg_eq text conv padZero _ hlength]
    rfl
  rw [hformat, formatLoop, if_neg (not_not.mpr rfl), flagStep_render padZero width hhead]
  dsimp only
  rw [widthLoop_render width hhead]
  dsimp only
  rw [lengthLoop_eq hmodifiers hplain]
  simp only [hconvert]

/-- The message of a format string is made of the messages of its parts in their order, each of which
takes its own argument. -/
theorem printkVformat_render (text : BitVec 64 → List UInt8) {items : List Item}
    {args : List (BitVec 64)} (hitems : ∀ item ∈ items, item.Ok) (hargs : fields items ≤ args.length) :
    printkVformat text (items.flatMap Item.render) args = some (messages text items args) := by
  have hloop : ∀ fuel, (items.flatMap Item.render).length ≤ fuel →
      formatLoop text fuel (items.flatMap Item.render) args = some (messages text items args) := by
    induction items generalizing args with
    | nil =>
        intro fuel _
        cases fuel with
        | zero => rfl
        | succ fuel => rfl
    | cons item items ih =>
        intro fuel hfuel
        have hrest := fun x hx => hitems x (List.mem_cons_of_mem item hx)
        rw [List.flatMap_cons, List.length_append] at hfuel
        rw [List.flatMap_cons]
        cases fuel with
        | zero =>
            -- every part is written with one character at least
            have hpos : 0 < item.render.length := by
              cases item with
              | text c => exact Nat.one_pos
              | percent => exact Nat.two_pos
              | field padZero width modifiers conv => exact Nat.succ_pos _
            omega
        | succ fuel =>
            cases item with
            | text c =>
                have hc : c ≠ 37 := hitems (.text c) List.mem_cons_self
                change 1 + _ ≤ _ at hfuel
                change formatLoop text (fuel + 1) (c :: items.flatMap Item.render) args = _
                rw [formatLoop, if_pos hc, ih hrest hargs fuel (by omega)]
                rfl
            | percent =>
                change 2 + _ ≤ _ at hfuel
                change (formatLoop text fuel (items.flatMap Item.render) args).map
                  (fun more => [37] ++ more) = _
                rw [ih hrest hargs fuel (by omega)]
                rfl
            | field padZero width modifiers conv =>
                cases args with
                | nil => exact absurd hargs (Nat.not_succ_le_zero _)
                | cons arg args =>
                    have hlen : 1 ≤ (Item.field padZero width modifiers conv).render.length :=
                      Nat.succ_le_of_lt (Nat.succ_pos _)
                    rw [formatLoop_item text (hitems _ List.mem_cons_self),
                      ih hrest (Nat.le_of_succ_le_succ hargs) fuel (by omega)]
                    rfl
  exact hloop _ le_rfl

/-- Two numbers and a text in one message. -/
theorem printkVformat_render_log : printkVformat (fun _ => [110]) ([Item.field true 4 [] (.hex false),
    .text 58, .field false 3 [108] (.signed false), .percent, .field false 0 [] .string].flatMap
      Item.render) [255, 0xFFFFFFFFFFFFFFFE, 1] =
        some [48, 48, 102, 102, 58, 32, 45, 50, 37, 110] := by
  have hrender := @printkVformat_render (fun _ => [110]) [Item.field true 4 [] (.hex false), .text 58,
    .field false 3 [108] (.signed false), .percent, .field false 0 [] .string]
    [255, 0xFFFFFFFFFFFFFFFE, 1] ?_ (by decide)
  · rw [hrender]
    decide
  · intro item hitem
    simp only [List.mem_cons, List.not_mem_nil, or_false] at hitem
    rcases hitem with rfl | rfl | rfl | rfl | rfl
    · exact ⟨fun c hc => (by cases hc), by decide⟩
    · exact (by decide : (58 : UInt8) ≠ 37)
    · exact ⟨fun c hc => Or.inl (List.mem_singleton.mp hc), by decide⟩
    · trivial
    · exact ⟨fun c hc => (by cases hc), by decide⟩

/-! ## Reading a message back -/

/-- The value of a digit. -/
def digitValue (c : UInt8) : Nat :=
  if c.toNat < 58 then c.toNat - 48 else if c.toNat < 97 then c.toNat - 55 else c.toNat - 87

/-- The value of a sequence of digits. -/
def readDigits (base : Nat) (cs : List UInt8) : Nat :=
  cs.foldl (fun n c => n * base + digitValue c) 0

/-- The number that stands in a field: blanks, a sign, digits. -/
def readNumber (base : Nat) : List UInt8 → Int
  | [] => 0
  | c :: rest =>
      if c = 32 then readNumber base rest
      else if c = 45 then -(readDigits base rest : Int)
      else readDigits base (c :: rest)

theorem digitValue_digitOf {upper : Bool} {i : Nat} (hi : i < 16) : digitValue (digitOf upper i) = i := by
  rw [digitValue, toNat_digitOf hi]
  split_ifs <;> omega

theorem digitValue_zero : digitValue 48 = 0 := by
  decide

theorem readDigits_numeral {base : Nat} (hone : 1 < base) (hbase : base ≤ 16) (upper : Bool) (n : Nat) :
    readDigits base (numeral base upper n) = n := by
  rw [numeral]
  split
  next hzero =>
    rw [hzero, readDigits, List.foldl_cons, List.foldl_nil, digitValue_zero, Nat.zero_mul]
  next hne =>
    have hread : ∀ ds : List Nat, (∀ d ∈ ds, d < base) →
        readDigits base (ds.map (digitOf upper)).reverse = Nat.ofDigits base ds := by
      intro ds hds
      rw [readDigits, List.foldl_reverse]
      induction ds with
      | nil => rfl
      | cons d ds ih =>
          rw [List.map_cons, List.foldr_cons, ih (fun x hx => hds x (List.mem_cons_of_mem d hx)),
            digitValue_digitOf ((hds d List.mem_cons_self).trans_le hbase), Nat.ofDigits_cons,
            Nat.mul_comm, Nat.add_comm]
    rw [hread _ (fun d hd => Nat.digits_lt_base hone hd), Nat.ofDigits_digits]

/-- Zeros in front do not count. -/
theorem readDigits_zeros (base fill : Nat) (cs : List UInt8) :
    readDigits base (List.replicate fill 48 ++ cs) = readDigits base cs := by
  induction fill with
  | zero => rfl
  | succ fill ih =>
      rw [List.replicate_succ, List.cons_append, readDigits, List.foldl_cons, digitValue_zero, Nat.zero_mul]
      change readDigits base (List.replicate fill 48 ++ cs) = _
      exact ih

/-- Blanks in front are skipped. -/
theorem readNumber_blanks (base fill : Nat) (cs : List UInt8) :
    readNumber base (List.replicate fill 32 ++ cs) = readNumber base cs := by
  induction fill with
  | zero => rfl
  | succ fill ih =>
      rw [List.replicate_succ, List.cons_append, readNumber, if_pos rfl]
      exact ih

/-- Digits are neither blanks nor signs. -/
theorem readNumber_digits {base : Nat} {cs : List UInt8} (hcs : ∀ c ∈ cs, 48 ≤ c.toNat) :
    readNumber base cs = readDigits base cs := by
  cases cs with
  | nil => rfl
  | cons c rest =>
      have hc := hcs c List.mem_cons_self
      have hblank : c ≠ 32 := by
        rintro rfl
        exact absurd hc (by decide)
      have hsign : c ≠ 45 := by
        rintro rfl
        exact absurd hc (by decide)
      rw [readNumber, if_neg hblank, if_neg hsign]

theorem numeral_digits {base : Nat} (hone : 1 < base) (hbase : base ≤ 16) (upper : Bool) (n : Nat) :
    ∀ c ∈ numeral base upper n, 48 ≤ c.toNat := by
  intro c hc
  rw [numeral] at hc
  split at hc
  next =>
    rw [List.mem_singleton.mp hc]
    decide
  next =>
    rw [List.mem_reverse, List.mem_map] at hc
    obtain ⟨i, hi, rfl⟩ := hc
    rw [toNat_digitOf ((Nat.digits_lt_base hone hi).trans_le hbase)]
    split
    next => omega
    next => split <;> omega

theorem readNumber_numberField {base : Nat} (hone : 1 < base) (hbase : base ≤ 16) (upper : Bool)
    (width : Nat) (padZero neg : Bool) (n : Nat) :
    readNumber base (numberField base upper width padZero neg n) =
      if neg = true then -(n : Int) else (n : Int) := by
  have hdigits := numeral_digits hone hbase upper n
  have hvalue := readDigits_numeral hone hbase upper n
  rw [numberField]
  cases neg with
  | true =>
      cases padZero with
      | true =>
          change -(readDigits base (List.replicate _ 48 ++ numeral base upper n) : Int) = -(n : Int)
          rw [readDigits_zeros, hvalue]
      | false =>
          rw [if_neg Bool.false_ne_true, List.append_assoc, readNumber_blanks]
          change -(readDigits base (numeral base upper n) : Int) = -(n : Int)
          rw [hvalue]
  | false =>
      cases padZero with
      | true =>
          change readNumber base (List.replicate _ 48 ++ numeral base upper n) = (n : Int)
          rw [readNumber_digits, readDigits_zeros, hvalue]
          intro c hc
          rcases List.mem_append.mp hc with hzero | hdigit
          · rw [List.eq_of_mem_replicate hzero]
            decide
          · exact hdigits c hdigit
      | false =>
          rw [if_neg Bool.false_ne_true, List.append_assoc, readNumber_blanks]
          change readNumber base (numeral base upper n) = (n : Int)
          rw [readNumber_digits hdigits, hvalue]

theorem length_numberField (base : Nat) (upper : Bool) (width : Nat) (padZero neg : Bool) (n : Nat) :
    (numberField base upper width padZero neg n).length =
      max width ((numeral base upper n).length + if neg = true then 1 else 0) := by
  rw [numberField]
  cases neg with
  | true =>
      cases padZero with
      | true =>
          simp only [if_true, List.length_append, List.length_replicate, List.length_singleton]
          omega
      | false =>
          simp only [if_true, Bool.false_eq_true, if_false, List.length_append, List.length_replicate,
            List.length_singleton]
          omega
  | false =>
      cases padZero with
      | true =>
          simp only [if_true, Bool.false_eq_true, if_false, List.length_append, List.length_replicate,
            List.length_nil]
          omega
      | false =>
          simp only [Bool.false_eq_true, if_false, List.length_append, List.length_replicate,
            List.length_nil]
          omega

/-- The bases in which numbers are printed. -/
def numberBase (hex : Bool) : Nat :=
  if hex = true then 16 else 10

/-- What {lit}`printk` prints for a 64-bit number, signed (the least one included) or unsigned, in any
field, reads back as this number; and it fills the field, or is as long as the number without any
padding. -/
theorem number_reads_back (value : BitVec 64) (hex upper : Bool) (width : Nat) (padZero : Bool) :
    readNumber 10 (printSigned value width padZero) = value.toInt ∧
      (printSigned value width padZero).length =
        max width ((numeral 10 false value.toInt.natAbs).length + if value.toInt < 0 then 1 else 0) ∧
      readNumber (numberBase hex) (printUnsigned value.toNat (numberBase hex) upper width padZero) =
        value.toNat ∧
      (printUnsigned value.toNat (numberBase hex) upper width padZero).length =
        max width (numeral (numberBase hex) upper value.toNat).length := by
  have hbase : 10 ≤ numberBase hex ∧ numberBase hex ≤ 16 := by
    cases hex <;> decide
  have hunsigned : printUnsigned value.toNat (numberBase hex) upper width padZero =
      numberField (numberBase hex) upper width padZero false value.toNat :=
    printNumber_eq hbase.1 value.isLt upper width padZero false
  rw [printSigned_eq, hunsigned, readNumber_numberField (by decide) (by decide),
    readNumber_numberField (by omega) hbase.2, length_numberField, length_numberField]
  refine ⟨?_, ?_, rfl, rfl⟩
  · simp only [decide_eq_true_eq]
    split <;> omega
  · simp only [decide_eq_true_eq]

end Console
end Nyxis
