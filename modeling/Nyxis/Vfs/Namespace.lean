import Nyxis.Vfs.Path
import Mathlib.Data.List.Infix

/-!
# The namespace of a path

{lit}`parse_namespace_path` with the bytes of the buffer that it builds the name in.  The name is
copied one segment after another, and a terminator is written only in front of a path and where the
name ends at {lit}`:/`.

Main results:

- Theorem {lit}`parseNamespaceInto_length`: nothing is written behind the buffer.
- Theorem {lit}`parseNamespacePath_eq`: the name that the callers see is the string in the buffer.
- Theorem {lit}`namespaceLaw_iff`: the paths that are split as they should be.
-/

namespace Nyxis
namespace Vfs

/-! ## The buffer -/

/-- Copy bytes into a buffer. -/
def copyTo (out : List UInt8) (start : Nat) (bytes : List UInt8) : List UInt8 :=
  out.take start ++ bytes ++ out.drop (start + bytes.length)

/-- The separator in front of a segment: the length of the name and the buffer. -/
def separate (out : List UInt8) (nsLen segmentLen : Nat) : Except Nstatus (Nat × List UInt8) :=
  if nsLen > 0 then
    if nsLen + 1 ≥ vfsNameMax + 1 then .error .NpathTooLong
    else if nsLen + 1 + segmentLen ≥ vfsNameMax + 1 then .error .NpathTooLong
    else .ok (nsLen + 1, copyTo out nsLen [colon])
  else .ok (nsLen, out)

/-- The loop of {lit}`parse_namespace_path`. -/
def namespaceIntoLoop (path : List UInt8) : (fuel : Nat) → (cursor : List UInt8) → (nsLen : Nat) →
    (out : List UInt8) → Except Nstatus (List UInt8 × List UInt8)
  | 0, _, _, out => .ok (out, path)
  | fuel + 1, cursor, nsLen, out =>
      if colon ∉ cursor then .ok (out, path)
      else
        let segment := cursor.takeWhile (fun b => b ≠ colon)
        let rest := (cursor.dropWhile (fun b => b ≠ colon)).tail
        if nsLen + segment.length ≥ vfsNameMax + 1 then .error .NpathTooLong
        else
          match separate out nsLen segment.length with
          | .error e => .error e
          | .ok (nsLen, out) =>
              let out := copyTo out nsLen segment
              let nsLen := nsLen + segment.length
              if rest.head? = some slash then .ok (copyTo out nsLen [0], rest)
              else namespaceIntoLoop path fuel rest nsLen out

/-- {lit}`parse_namespace_path`: the name buffer behind the call and the local path. -/
def parseNamespaceInto (buffer path : List UInt8) : Except Nstatus (List UInt8 × List UInt8) :=
  let out := copyTo buffer 0 [0]
  if path.head? = some slash then .ok (out, path)
  else namespaceIntoLoop path path.length path 0 out

/-- A buffer whose first bytes have been written. -/
def filled (base copied : List UInt8) : List UInt8 :=
  copied ++ base.drop copied.length

theorem copyTo_filled (base copied bytes : List UInt8) :
    copyTo (filled base copied) copied.length bytes = filled base (copied ++ bytes) := by
  rw [copyTo, filled, filled, List.take_left, List.drop_append, List.drop_drop, List.length_append,
    List.drop_eq_nil_of_le (Nat.le_add_right _ _), List.nil_append, Nat.add_sub_cancel_left]

theorem length_filled {base copied : List UInt8} (h : copied.length ≤ base.length) :
    (filled base copied).length = base.length := by
  rw [filled, List.length_append, List.length_drop]
  omega

theorem append_zero_le_filled (base copied : List UInt8) :
    copied ++ [0] <+: filled base (copied ++ [0]) :=
  List.prefix_append _ _

/-- The name so far and the next segment. -/
def joined (copied segment : List UInt8) : List UInt8 :=
  if copied = [] then segment else copied ++ colon :: segment

theorem length_joined (copied segment : List UInt8) : (joined copied segment).length =
    if copied = [] then segment.length else copied.length + 1 + segment.length := by
  rw [joined]
  split
  next => rfl
  next =>
    rw [List.length_append, List.length_cons]
    omega

section Segment

variable {segment rest : List UInt8} (hseg : colon ∉ segment)

include hseg

theorem takeWhile_segment :
    (segment ++ colon :: rest).takeWhile (fun b => b ≠ colon) = segment := by
  rw [List.takeWhile_append_of_pos, List.takeWhile_cons_of_neg, List.append_nil]
  · simp
  · intro b hb
    rw [decide_eq_true_eq]
    rintro rfl
    exact hseg hb

theorem dropWhile_segment :
    (segment ++ colon :: rest).dropWhile (fun b => b ≠ colon) = colon :: rest := by
  rw [List.dropWhile_append_of_pos, List.dropWhile_cons_of_neg]
  · simp
  · intro b hb
    rw [decide_eq_true_eq]
    rintro rfl
    exact hseg hb

/-- One round of the loop that finds the separators, on the name so far. -/
theorem namespaceLoop_step (buffer path copied : List UInt8) (fuel : Nat) :
    namespaceLoop buffer path (fuel + 1) (segment ++ colon :: rest) copied =
      if (joined copied segment).length ≥ vfsNameMax + 1 then .error .NpathTooLong
      else if rest.head? = some slash then .ok (joined copied segment, rest)
      else namespaceLoop buffer path fuel rest (joined copied segment) := by
  rw [namespaceLoop, if_neg (by simp), takeWhile_segment hseg, dropWhile_segment hseg, length_joined,
    joined]
  dsimp only [List.tail_cons]
  by_cases hnil : copied = []
  · simp only [hnil, if_true, List.length_nil, List.nil_append, Nat.zero_add]
    by_cases hfits : segment.length ≥ vfsNameMax + 1
    · rw [if_pos hfits, if_pos hfits]
    · rw [if_neg hfits, if_neg hfits, if_neg (by decide)]
  · simp only [hnil, if_false, List.length_append, List.length_singleton, List.append_assoc,
      List.singleton_append]
    by_cases hfits : copied.length + 1 + segment.length ≥ vfsNameMax + 1
    · rw [if_pos hfits, ite_eq_left_iff]
      intro _
      split
      next => rfl
      next => rfl
    · rw [if_neg hfits, if_neg (by omega), if_neg (by omega)]

/-- The same round, on the bytes of the buffer. -/
theorem namespaceIntoLoop_step (base path copied : List UInt8) (fuel : Nat) :
    namespaceIntoLoop path (fuel + 1) (segment ++ colon :: rest) copied.length (filled base copied) =
      if (joined copied segment).length ≥ vfsNameMax + 1 then .error .NpathTooLong
      else if rest.head? = some slash then .ok (filled base (joined copied segment ++ [0]), rest)
      else namespaceIntoLoop path fuel rest (joined copied segment).length
        (filled base (joined copied segment)) := by
  rw [namespaceIntoLoop, if_neg (by simp), takeWhile_segment hseg, dropWhile_segment hseg,
    length_joined, joined]
  dsimp only [List.tail_cons]
  rw [separate]
  by_cases hnil : copied = []
  · rw [hnil]
    simp only [if_true, List.length_nil, Nat.zero_add, Nat.lt_irrefl, if_false, gt_iff_lt]
    have hcopy : copyTo (filled base []) 0 segment = filled base segment := copyTo_filled base [] segment
    rw [hcopy, copyTo_filled]
  · have hpos : copied.length > 0 := List.length_pos_of_ne_nil hnil
    rw [if_pos hpos, if_neg hnil, if_neg hnil, copyTo_filled]
    by_cases hfits : copied.length + 1 + segment.length ≥ vfsNameMax + 1
    · rw [if_pos hfits, if_pos hfits, ite_self, ite_self]
    · have hlen : copied.length + 1 = (copied ++ [colon]).length := by rw [List.length_append]; rfl
      rw [if_neg hfits, if_neg (by omega), if_neg (by omega), if_neg hfits]
      dsimp only
      have hcons : copied ++ [colon] ++ segment = copied ++ colon :: segment := by
        rw [List.append_assoc, List.singleton_append]
      rw [hlen, copyTo_filled, ← List.length_append, copyTo_filled, hcons]

end Segment

/-- A cursor with a separator starts with a segment. -/
theorem exists_segment {cursor : List UInt8} (h : colon ∈ cursor) :
    ∃ segment rest, colon ∉ segment ∧ cursor = segment ++ colon :: rest := by
  obtain ⟨segment, rest, heq, hseg⟩ := List.eq_append_cons_of_mem h
  exact ⟨segment, rest, hseg, heq⟩

theorem namespaceIntoLoop_exit (path : List UInt8) (fuel : Nat) {cursor : List UInt8}
    (h : colon ∉ cursor) (nsLen : Nat) (out : List UInt8) :
    namespaceIntoLoop path fuel cursor nsLen out = .ok (out, path) := by
  cases fuel with
  | zero => rfl
  | succ fuel => rw [namespaceIntoLoop, if_pos h]

theorem namespaceLoop_exit (buffer path : List UInt8) (fuel : Nat) {cursor : List UInt8}
    (h : colon ∉ cursor) (copied : List UInt8) :
    namespaceLoop buffer path fuel cursor copied = .ok (unterminated buffer copied, path) := by
  cases fuel with
  | zero => rfl
  | succ fuel => rw [namespaceLoop, if_pos h]

/-- The loop writes inside the buffer. -/
theorem namespaceIntoLoop_length {base path out loc : List UInt8} (hbase : base.length = vfsNameMax + 1)
    (fuel : Nat) {cursor copied : List UInt8} (hcopied : copied.length < vfsNameMax + 1)
    (hok : namespaceIntoLoop path fuel cursor copied.length (filled base copied) = .ok (out, loc)) :
    out.length = base.length := by
  induction fuel generalizing cursor copied with
  | zero =>
      cases hok
      exact length_filled (by omega)
  | succ fuel ih =>
      by_cases hcolon : colon ∈ cursor
      · obtain ⟨segment, rest, hseg, rfl⟩ := exists_segment hcolon
        rw [namespaceIntoLoop_step hseg] at hok
        split at hok
        next => cases hok
        next hfits =>
          split at hok
          next =>
            cases hok
            apply length_filled
            rw [List.length_append, List.length_singleton]
            omega
          next => exact ih (by omega) hok
      · rw [namespaceIntoLoop_exit path _ hcolon] at hok
        cases hok
        exact length_filled (by omega)

/-- {lit}`parse_namespace_path` writes inside the buffer of its caller. -/
theorem parseNamespaceInto_length {buffer path out loc : List UInt8}
    (hlen : buffer.length = vfsNameMax + 1) (hok : parseNamespaceInto buffer path = .ok (out, loc)) :
    out.length = buffer.length := by
  have hbase : (copyTo buffer 0 [0]).length = buffer.length := by
    rw [copyTo, List.take_zero, List.nil_append, List.length_append, List.length_drop]
    simp only [List.length_singleton]
    omega
  rw [parseNamespaceInto] at hok
  split at hok
  next =>
    cases hok
    exact hbase
  next =>
    rw [← hbase]
    refine @namespaceIntoLoop_length _ _ _ _ (hbase.trans hlen) path.length _ [] ?_ hok
    decide

/-! ## The string in the buffer -/

theorem cString_append_zero {name : List UInt8} (h : 0 ∉ name) (rest : List UInt8) :
    cString (name ++ 0 :: rest) = name := by
  rw [cString, List.takeWhile_append_of_pos, List.takeWhile_cons_of_neg, List.append_nil]
  · simp
  · intro b hb
    rw [decide_eq_true_eq]
    rintro rfl
    exact h hb

theorem cString_filled {buffer copied : List UInt8} (h : 0 ∉ copied) :
    cString (filled (copyTo buffer 0 [0]) copied) = unterminated buffer copied := by
  rw [unterminated]
  split
  next hnil =>
    rw [hnil]
    rfl
  next hne =>
    obtain ⟨n, hn⟩ : ∃ n, copied.length = n + 1 :=
      ⟨copied.length - 1, by have := List.length_pos_of_ne_nil hne; omega⟩
    have hdrop : (copyTo buffer 0 [0]).drop copied.length = buffer.drop copied.length := by
      rw [hn, copyTo, List.take_zero, List.nil_append, List.singleton_append, List.drop_succ_cons,
        List.drop_drop, Nat.add_comm]
      rfl
    rw [filled, hdrop, cString, cString, List.takeWhile_append_of_pos]
    intro b hb
    rw [decide_eq_true_eq]
    rintro rfl
    exact h hb

theorem joined_mem {copied segment : List UInt8} {b : UInt8} (h : b ∈ joined copied segment) :
    b ∈ copied ∨ b = colon ∨ b ∈ segment := by
  rw [joined] at h
  split at h
  next => exact Or.inr (Or.inr h)
  next => simpa using h

theorem zero_notMem_joined {copied segment : List UInt8} (h : 0 ∉ copied) (h' : 0 ∉ segment) :
    0 ∉ joined copied segment := by
  intro hmem
  rcases joined_mem hmem with hmem | hmem | hmem
  · exact h hmem
  · exact absurd hmem (by decide)
  · exact h' hmem

/-- The two loops find the same name. -/
theorem namespaceIntoLoop_string (buffer path : List UInt8) (fuel : Nat) {cursor copied : List UInt8}
    (hcursor : 0 ∉ cursor) (hcopied : 0 ∉ copied) :
    (namespaceIntoLoop path fuel cursor copied.length (filled (copyTo buffer 0 [0]) copied)).map
      (fun r => (cString r.1, r.2)) = namespaceLoop buffer path fuel cursor copied := by
  induction fuel generalizing cursor copied with
  | zero =>
      rw [namespaceIntoLoop, namespaceLoop, Except.map, cString_filled hcopied]
  | succ fuel ih =>
      by_cases hcolon : colon ∈ cursor
      · obtain ⟨segment, rest, hseg, rfl⟩ := exists_segment hcolon
        have hsegment : 0 ∉ segment := fun h => hcursor (List.mem_append_left _ h)
        have hrest : 0 ∉ rest := fun h => hcursor (List.mem_append_right _ (List.mem_cons_of_mem _ h))
        have hjoined := zero_notMem_joined hcopied hsegment
        rw [namespaceIntoLoop_step hseg, namespaceLoop_step hseg]
        split
        next => rfl
        next =>
          split
          next =>
            rw [Except.map, filled, List.append_assoc, List.singleton_append,
              cString_append_zero hjoined]
          next => exact ih hrest hjoined
      · rw [namespaceIntoLoop_exit path _ hcolon, namespaceLoop_exit buffer path _ hcolon, Except.map,
          cString_filled hcopied]

/-- The name that the callers of {lit}`parse_namespace_path` see is the string in their buffer. -/
theorem parseNamespacePath_eq (buffer : List UInt8) {path : List UInt8} (hpath : 0 ∉ path) :
    parseNamespacePath buffer path =
      (parseNamespaceInto buffer path).map (fun r => (cString r.1, r.2)) := by
  rw [parseNamespacePath, parseNamespaceInto]
  split
  next => rfl
  next =>
    exact (namespaceIntoLoop_string buffer path path.length hpath List.not_mem_nil).symm

/-! ## Splitting a path -/

/-- How a path should be split: at its first {lit}`:/`, unless it starts with a slash. -/
structure Splits (path ns loc : List UInt8) : Prop where
  named : path.head? ≠ some slash → [colon, slash] <:+: path →
    path = ns ++ colon :: loc ∧ loc.head? = some slash ∧ ¬ [colon, slash] <:+: ns
  unnamed : path.head? = some slash ∨ ¬ [colon, slash] <:+: path → ns = [] ∧ loc = path

/-- The law of {lit}`parse_namespace_path`: where it succeeds, the buffer of the caller holds the
terminated name and the local path is the other part, whatever the buffer held before. -/
def NamespaceLaw (path : List UInt8) : Prop :=
  ∃ ns loc, Splits path ns loc ∧ ∀ buffer out loc', buffer.length = vfsNameMax + 1 →
    parseNamespaceInto buffer path = .ok (out, loc') → loc' = loc ∧ ns ++ [0] <+: out

/-- The paths on which the loop does what it should.  It drops the separators in front of a name, and
at the end of a path it leaves a name without its terminator. -/
def SplitsWell (path : List UInt8) : Prop :=
  path.head? = some slash ∨
    if [colon, slash] <:+: path then path.head? = some colon → path.tail.head? = some slash
    else colon ∉ path.dropWhile (fun b => b = colon)

/-- The first root mark of a path. -/
theorem exists_root {path : List UInt8} (h : [colon, slash] <:+: path) :
    ∃ ns loc, path = ns ++ colon :: loc ∧ loc.head? = some slash ∧ ¬ [colon, slash] <:+: ns := by
  induction path with
  | nil => exact absurd (List.infix_nil.mp h) (by decide)
  | cons b path ih =>
      rcases List.infix_cons_iff.mp h with hpre | htail
      · obtain ⟨tail, htail⟩ := hpre
        refine ⟨[], slash :: tail, htail.symm, rfl, ?_⟩
        intro hnil
        exact absurd (List.infix_nil.mp hnil) (by decide)
      · by_cases hhead : [colon, slash] <+: b :: path
        · obtain ⟨tail, htail⟩ := hhead
          refine ⟨[], slash :: tail, htail.symm, rfl, ?_⟩
          intro hnil
          exact absurd (List.infix_nil.mp hnil) (by decide)
        · obtain ⟨ns, loc, rfl, hloc, hfirst⟩ := ih htail
          refine ⟨b :: ns, loc, rfl, hloc, ?_⟩
          intro hsub
          rcases List.infix_cons_iff.mp hsub with hpre | hinner
          · exact hhead (hpre.trans ⟨colon :: loc, rfl⟩)
          · exact hfirst hinner

/-- Behind a separator that is no root mark there is no slash. -/
theorem head_ne_slash {segment rest : List UInt8}
    (h : ¬ [colon, slash] <:+: segment ++ colon :: rest) : rest.head? ≠ some slash := by
  intro hhead
  obtain ⟨tail, rfl⟩ := List.head?_eq_some_iff.mp hhead
  exact h ⟨segment, tail, by simp⟩

/-- The name that the loop builds of the text in front of the root mark. -/
def builtName (copied text : List UInt8) : List UInt8 :=
  if copied = [] then text.dropWhile (fun b => b = colon) else copied ++ colon :: text

theorem builtName_last {copied text : List UInt8} (h : colon ∉ text) :
    builtName copied text = joined copied text := by
  rw [builtName, joined]
  split
  next =>
    cases text with
    | nil => rfl
    | cons b text =>
        rw [List.dropWhile_cons_of_neg]
        rw [decide_eq_true_eq]
        rintro rfl
        exact h List.mem_cons_self
  next => rfl

theorem builtName_segment {copied segment text : List UInt8} (h : colon ∉ segment) :
    builtName (joined copied segment) text = builtName copied (segment ++ colon :: text) := by
  by_cases hcopied : copied = []
  · rw [joined, if_pos hcopied, builtName, builtName, if_pos hcopied]
    cases segment with
    | nil =>
        rw [if_pos rfl, List.nil_append, List.dropWhile_cons_of_pos]
        simp
    | cons b segment =>
        rw [if_neg (List.cons_ne_nil _ _), List.cons_append, List.dropWhile_cons_of_neg]
        rw [decide_eq_true_eq]
        rintro rfl
        exact h List.mem_cons_self
  · rw [joined, if_neg hcopied, builtName, builtName, if_neg hcopied, if_neg (by simp)]
    simp

/-- The loop on a path with a root mark. -/
theorem namespaceIntoLoop_named {base path loc out loc' : List UInt8} (hloc : loc.head? = some slash)
    (fuel : Nat) {text copied : List UInt8} (hfuel : (text ++ colon :: loc).length ≤ fuel)
    (hfirst : ¬ [colon, slash] <:+: text)
    (hok : namespaceIntoLoop path fuel (text ++ colon :: loc) copied.length (filled base copied) =
      .ok (out, loc')) :
    loc' = loc ∧ out = filled base (builtName copied text ++ [0]) := by
  induction fuel generalizing text copied with
  | zero => simp at hfuel
  | succ fuel ih =>
      by_cases hcolon : colon ∈ text
      · obtain ⟨segment, rest, hseg, rfl⟩ := exists_segment hcolon
        have hhead : (rest ++ colon :: loc).head? ≠ some slash := by
          cases rest with
          | nil => simp [colon, slash]
          | cons b rest =>
              have hb := head_ne_slash hfirst
              rwa [List.cons_append, List.head?_cons]
        have hlen : (rest ++ colon :: loc).length ≤ fuel := by
          simp only [List.length_append, List.length_cons] at hfuel ⊢
          omega
        have hfirst' : ¬ [colon, slash] <:+: rest := by
          intro hsub
          exact hfirst (hsub.trans ⟨segment ++ [colon], [], by simp⟩)
        rw [List.append_assoc, List.cons_append, namespaceIntoLoop_step hseg] at hok
        split at hok
        next => cases hok
        next =>
          rw [← builtName_segment hseg]
          exact ih hlen hfirst' hok
      · rw [namespaceIntoLoop_step hcolon] at hok
        split at hok
        next => cases hok
        next =>
          cases hok
          rw [builtName_last hcolon]
          exact ⟨rfl, rfl⟩

theorem joined_nil_iff {copied segment rest : List UInt8} (h : colon ∉ segment) :
    (joined copied segment = [] ∧ colon ∉ rest.dropWhile (fun b => b = colon)) ↔
      copied = [] ∧ colon ∉ (segment ++ colon :: rest).dropWhile (fun b => b = colon) := by
  cases segment with
  | nil =>
      have hjoined : joined copied [] = [] ↔ copied = [] := by
        rw [joined]
        split
        next hnil => simp [hnil]
        next hne => simp [hne]
      rw [hjoined, List.nil_append, List.dropWhile_cons_of_pos (by simp)]
  | cons b segment =>
      have hb : b ≠ colon := by
        rintro rfl
        exact h List.mem_cons_self
      have hjoined : joined copied (b :: segment) ≠ [] := by
        rw [joined]
        split
        next => simp
        next => simp
      rw [List.cons_append, List.dropWhile_cons_of_neg (by simpa using hb)]
      simp [hjoined]

/-- The loop on a path without a root mark: it copies every segment behind which a separator
stands. -/
theorem namespaceIntoLoop_unnamed {base path out loc' : List UInt8} (fuel : Nat)
    {cursor copied : List UInt8} (hfuel : cursor.length ≤ fuel) (hnone : ¬ [colon, slash] <:+: cursor)
    (hok : namespaceIntoLoop path fuel cursor copied.length (filled base copied) = .ok (out, loc')) :
    loc' = path ∧ ∃ final, out = filled base final ∧
      (final = [] ↔ copied = [] ∧ colon ∉ cursor.dropWhile (fun b => b = colon)) ∧
      (0 ∉ copied → 0 ∉ cursor → 0 ∉ final) := by
  induction fuel generalizing cursor copied with
  | zero =>
      obtain rfl : cursor = [] := List.eq_nil_of_length_eq_zero (Nat.le_zero.mp hfuel)
      cases hok
      exact ⟨rfl, copied, rfl, by simp, fun h _ => h⟩
  | succ fuel ih =>
      by_cases hcolon : colon ∈ cursor
      · obtain ⟨segment, rest, hseg, rfl⟩ := exists_segment hcolon
        have hlen : rest.length ≤ fuel := by
          simp only [List.length_append, List.length_cons] at hfuel
          omega
        have hnone' : ¬ [colon, slash] <:+: rest := by
          intro hsub
          exact hnone (hsub.trans ⟨segment ++ [colon], [], by simp⟩)
        rw [namespaceIntoLoop_step hseg] at hok
        split at hok
        next => cases hok
        next =>
          rw [if_neg (head_ne_slash hnone)] at hok
          obtain ⟨hloc, final, hout, hnil, hzero⟩ := ih hlen hnone' hok
          refine ⟨hloc, final, hout, ?_, ?_⟩
          · rw [hnil]
            exact joined_nil_iff hseg
          · intro hcopied hcursor
            refine hzero (zero_notMem_joined hcopied fun h => hcursor (List.mem_append_left _ h)) ?_
            exact fun h => hcursor (List.mem_append_right _ (List.mem_cons_of_mem _ h))
      · rw [namespaceIntoLoop_exit path _ hcolon] at hok
        cases hok
        refine ⟨rfl, copied, rfl, ?_, fun h _ => h⟩
        have hdrop : colon ∉ cursor.dropWhile (fun b => b = colon) :=
          fun h => hcolon ((List.dropWhile_suffix _).subset h)
        simp [hdrop]

/-! ## When the law holds -/

/-- The string in a buffer is the one in front of its first terminator. -/
theorem eq_of_terminated {name name' rest out : List UInt8} (h : 0 ∉ name) (h' : 0 ∉ name')
    (hname : name ++ [0] <+: out) (hout : out = name' ++ 0 :: rest) : name = name' := by
  obtain ⟨tail, htail⟩ := hname
  rw [← cString_append_zero h tail, ← cString_append_zero h' rest, ← hout, ← htail, List.append_assoc,
    List.singleton_append]

theorem filled_zero (base name : List UInt8) :
    filled base (name ++ [0]) = name ++ 0 :: base.drop (name.length + 1) := by
  rw [filled, List.append_assoc, List.singleton_append, List.length_append]
  rfl

/-- Behind a call that succeeds, on a path with a root mark. -/
theorem parseNamespaceInto_named {buffer out loc loc' text : List UInt8}
    (hhead : (text ++ colon :: loc).head? ≠ some slash) (hloc : loc.head? = some slash)
    (hfirst : ¬ [colon, slash] <:+: text)
    (hok : parseNamespaceInto buffer (text ++ colon :: loc) = .ok (out, loc')) :
    loc' = loc ∧ out = filled (copyTo buffer 0 [0]) (text.dropWhile (fun b => b = colon) ++ [0]) := by
  rw [parseNamespaceInto, if_neg hhead] at hok
  exact @namespaceIntoLoop_named _ _ _ _ _ hloc _ _ [] le_rfl hfirst hok

/-- Behind a call that succeeds, on a path without a root mark. -/
theorem parseNamespaceInto_unnamed {buffer out path loc' : List UInt8}
    (hhead : path.head? ≠ some slash) (hnone : ¬ [colon, slash] <:+: path) (hpath : 0 ∉ path)
    (hok : parseNamespaceInto buffer path = .ok (out, loc')) :
    loc' = path ∧ ([0] <+: out ↔ colon ∉ path.dropWhile (fun b => b = colon)) := by
  rw [parseNamespaceInto, if_neg hhead] at hok
  obtain ⟨hloc, final, hout, hnil, hzero⟩ := @namespaceIntoLoop_unnamed _ _ _ _ _ _ [] le_rfl hnone hok
  refine ⟨hloc, ?_⟩
  have hcolons : final = [] ↔ colon ∉ path.dropWhile (fun b => b = colon) := by
    rw [hnil, and_iff_right rfl]
  rw [← hcolons, hout]
  cases final with
  | nil => exact iff_of_true ⟨buffer.drop 1, rfl⟩ rfl
  | cons b final =>
      refine iff_of_false ?_ (List.cons_ne_nil _ _)
      rintro ⟨tail, htail⟩
      have hb : 0 = b := (List.cons.inj htail).1
      exact hzero List.not_mem_nil hpath (hb ▸ List.mem_cons_self)

/-- The text in front of the first root mark keeps its separators exactly when it starts with none. -/
theorem dropWhile_text_iff {text loc : List UInt8} (hloc : loc.head? = some slash)
    (hfirst : ¬ [colon, slash] <:+: text) :
    text.dropWhile (fun b => b = colon) = text ↔
      ((text ++ colon :: loc).head? = some colon → (text ++ colon :: loc).tail.head? = some slash) := by
  cases text with
  | nil => exact iff_of_true rfl (fun _ => hloc)
  | cons b text =>
      by_cases hb : b = colon
      · rw [List.dropWhile_cons_of_pos (by simpa using hb)]
        refine iff_of_false ?_ ?_
        · intro heq
          have hlen := (List.dropWhile_suffix (fun b => decide (b = colon)) (l := text)).length_le
          rw [heq, List.length_cons] at hlen
          omega
        · intro himp
          have hslash := himp (by rw [hb]; rfl)
          cases text with
          | nil => exact absurd hslash (by simp [colon, slash])
          | cons c text =>
              obtain rfl : c = slash := Option.some.inj hslash
              exact hfirst ⟨[], text, by rw [hb]; rfl⟩
      · rw [List.dropWhile_cons_of_neg (by simpa using hb)]
        refine iff_of_true rfl (fun heq => ?_)
        exact absurd (Option.some.inj heq) hb

/-- Where {lit}`parse_namespace_path` succeeds, the law holds exactly for the paths that the loop
splits well. -/
theorem namespaceLaw_iff {path buffer out loc : List UInt8} (hpath : 0 ∉ path)
    (hlen : buffer.length = vfsNameMax + 1) (hok : parseNamespaceInto buffer path = .ok (out, loc)) :
    NamespaceLaw path ↔ SplitsWell path := by
  by_cases hhead : path.head? = some slash
  · refine iff_of_true ⟨[], path, ⟨fun h => absurd hhead h, fun _ => ⟨rfl, rfl⟩⟩, ?_⟩ (Or.inl hhead)
    intro buffer' out' loc' _ hok'
    rw [parseNamespaceInto, if_pos hhead] at hok'
    cases hok'
    exact ⟨rfl, buffer'.drop 1, rfl⟩
  rw [SplitsWell, or_iff_right hhead]
  by_cases hroot : [colon, slash] <:+: path
  · rw [if_pos hroot]
    obtain ⟨text, loc₀, rfl, hloc, hfirst⟩ := exists_root hroot
    rw [← dropWhile_text_iff hloc hfirst]
    have htext : 0 ∉ text := fun h => hpath (List.mem_append_left _ h)
    constructor
    · rintro ⟨ns, loc₁, hsplits, hall⟩
      obtain ⟨hloc₁, hns⟩ := hall buffer out loc hlen hok
      obtain ⟨hloc₀, hout⟩ := parseNamespaceInto_named hhead hloc hfirst hok
      obtain ⟨hpath', -, -⟩ := hsplits.named hhead hroot
      rw [← hloc₁, hloc₀] at hpath'
      obtain rfl : text = ns := List.append_cancel_right hpath'
      rw [filled_zero] at hout
      have hdrop : 0 ∉ text.dropWhile (fun b => b = colon) :=
        fun h => htext ((List.dropWhile_suffix _).subset h)
      exact (eq_of_terminated htext hdrop hns hout).symm
    · intro hdrop
      refine ⟨text, loc₀, ⟨fun _ _ => ⟨rfl, hloc, hfirst⟩, ?_⟩, ?_⟩
      · rintro (h | h)
        · exact absurd h hhead
        · exact absurd hroot h
      · intro buffer' out' loc' _ hok'
        obtain ⟨hloc', hout'⟩ := parseNamespaceInto_named hhead hloc hfirst hok'
        rw [hout', hdrop]
        exact ⟨hloc', append_zero_le_filled _ _⟩
  · rw [if_neg hroot]
    have hcase := parseNamespaceInto_unnamed hhead hroot hpath hok
    rw [← hcase.2]
    constructor
    · rintro ⟨ns, loc₁, hsplits, hall⟩
      obtain ⟨-, hns⟩ := hall buffer out loc hlen hok
      rw [(hsplits.unnamed (Or.inr hroot)).1] at hns
      exact hns
    · intro hzero
      refine ⟨[], path, ⟨fun _ h => absurd h hroot, fun _ => ⟨rfl, rfl⟩⟩, ?_⟩
      intro buffer' out' loc' _ hok'
      obtain ⟨hloc', hiff⟩ := parseNamespaceInto_unnamed hhead hroot hpath hok'
      exact ⟨hloc', hiff.mpr (hcase.2.mp hzero)⟩

/-- The path {lit}`a:/b`. -/
theorem namespaceLaw_plain : NamespaceLaw [97, 58, 47, 98] := by
  have hok : parseNamespaceInto (List.replicate 256 255) [97, 58, 47, 98] = .ok (_, [47, 98]) := rfl
  refine (namespaceLaw_iff (by decide) List.length_replicate hok).mpr (Or.inr ?_)
  rw [if_pos (by decide)]
  decide

/-- The path {lit}`a:b`: the name is left without a terminator, and what the buffer held before is
read as a part of it. -/
theorem namespaceLaw_fails : ¬ NamespaceLaw [97, 58, 98] ∧
    ∃ out out', parseNamespaceInto (List.replicate 256 0) [97, 58, 98] = .ok (out, [97, 58, 98]) ∧
      parseNamespaceInto (97 :: 120 :: List.replicate 254 0) [97, 58, 98] = .ok (out', [97, 58, 98]) ∧
      cString out = [97] ∧ cString out' = [97, 120] := by
  refine ⟨?_, _, _, rfl, rfl, by decide +kernel, by decide +kernel⟩
  rintro ⟨ns, loc, hsplits, hall⟩
  obtain ⟨rfl, -⟩ := hsplits.unnamed (Or.inr (by decide))
  have hzero := (hall (List.replicate 256 0) _ _ List.length_replicate rfl).2
  exact absurd hzero (by decide +kernel)

end Vfs
end Nyxis
