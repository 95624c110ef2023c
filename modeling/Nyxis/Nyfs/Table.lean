import Nyxis.Lib.ByteMap
import Nyxis.Nyfs.Dirhash
import Mathlib.Data.List.Pairwise

/-!
# Directory tables as byte maps

The bytes of a directory's stream hold a table: for each bucket a list of records, linked
through their offsets.  This module is about the bytes alone; what the calls make of a
volume is in {lit}`Nyxis.Nyfs.Directory`.

Main results:

- Definition {lit}`Table`: a byte map that holds the given buckets.
- Theorem {lit}`Table.insert`: the four writes of an insertion put a record in front of its
  bucket.
- Theorem {lit}`Table.remove`: the two writes of a removal take a record out of its bucket.
-/

namespace Nyxis
namespace Nyfs

open Bytes

/-! ## Records -/

/-- A record of a directory table. -/
structure Record where
  offset : Nat
  name : List UInt8
  ino : Nat
  type : Nat
deriving DecidableEq

/-- The end of the bytes that carry a record. -/
def Record.stop (r : Record) : Nat :=
  r.offset + 24 + r.name.length

/-- The fixed part of a record. -/
def Record.dirent (r : Record) (next : Nat) : Dirent :=
  ⟨r.ino, next, nyfsHashName r.name, r.name.length, r.type, 0⟩

/-- The offset under which a list of records is reached. -/
def linkOf : List Record → Nat
  | [] => 0
  | r :: _ => r.offset

/-- A record lies in the byte map, linked to the given offset. -/
structure RecordAt (f : Nat → UInt8) (r : Record) (next : Nat) : Prop where
  dirent : bytesAt f r.offset 24 = encodeDirent (r.dirent next)
  name : bytesAt f (r.offset + 24) r.name.length = r.name

/-- Records lie in the byte map, each linked to the next one. -/
def Linked (f : Nat → UInt8) : List Record → Prop
  | [] => True
  | r :: rest => RecordAt f r (linkOf rest) ∧ Linked f rest

/-- A record that lies behind the buckets and before the free part. -/
structure Record.Valid (free : Nat) (r : Record) : Prop where
  offset_ge : 160 ≤ r.offset
  stop_le : r.stop ≤ free
  name_pos : 0 < r.name.length
  name_le : r.name.length ≤ nyfsNameMax
  ino_lt : r.ino < 2 ^ 64
  type_lt : r.type < 256

/-- Two records that share no byte. -/
def Record.Apart (r s : Record) : Prop :=
  r.stop ≤ s.offset ∨ s.stop ≤ r.offset

theorem Record.Apart.symm {r s : Record} (h : r.Apart s) : s.Apart r :=
  Or.symm h

instance : Std.Symm Record.Apart :=
  ⟨fun _ _ => Record.Apart.symm⟩

/-- All records of a table in the order of the buckets. -/
def entries (buckets : Nat → List Record) : List Record :=
  (List.range nyfsDirhashDefaultBuckets).flatMap buckets

/-- The header of a table. -/
def tableHeader (count free : Nat) : DirhashHeader :=
  ⟨nyfsDirhashMagic, nyfsDirhashDefaultBuckets, count, free, 0, 0⟩

/-- A byte map that holds a table with the given buckets and free offset. -/
structure Table (f : Nat → UInt8) (buckets : Nat → List Record) (free : Nat) : Prop where
  header : bytesAt f 0 32 = encodeDirhashHeader (tableHeader (entries buckets).length free)
  head : ∀ b, b < nyfsDirhashDefaultBuckets →
    bytesAt f (bucketOffset b) 8 = leBytes 8 (linkOf (buckets b))
  linked : ∀ b, b < nyfsDirhashDefaultBuckets → Linked f (buckets b)
  hash : ∀ b, b < nyfsDirhashDefaultBuckets → ∀ r ∈ buckets b,
    nyfsHashName r.name % nyfsDirhashDefaultBuckets = b
  valid : ∀ r ∈ entries buckets, r.Valid free
  apart : (entries buckets).Pairwise Record.Apart
  names : ((entries buckets).map Record.name).Nodup
  free_ge : 160 ≤ free
  free_mod : free % 8 = 0

/-! ## Buckets -/

theorem mem_entries {buckets : Nat → List Record} {r : Record} :
    r ∈ entries buckets ↔ ∃ b, b < nyfsDirhashDefaultBuckets ∧ r ∈ buckets b := by
  simp [entries, List.mem_flatMap]

/-- The entries around one bucket. -/
theorem entries_split (buckets : Nat → List Record) {b : Nat} (hb : b < nyfsDirhashDefaultBuckets) :
    ∃ front back, ∀ bucket, entries (Function.update buckets b bucket) = front ++ bucket ++ back := by
  obtain ⟨front, back, hrange⟩ := List.append_of_mem (List.mem_range.mpr hb)
  have hnodup : (front ++ b :: back).Nodup := hrange ▸ List.nodup_range
  obtain ⟨-, hback, hdisjoint⟩ := List.nodup_append.mp hnodup
  have hsame : ∀ (bs : List Nat) (bucket : List Record), b ∉ bs →
      bs.flatMap (Function.update buckets b bucket) = bs.flatMap buckets := by
    intro bs bucket hmem
    refine List.flatMap_congr (fun c hc => ?_)
    refine Function.update_of_ne ?_ ..
    rintro rfl
    exact hmem hc
  refine ⟨front.flatMap buckets, back.flatMap buckets, fun bucket => ?_⟩
  rw [entries, hrange, List.flatMap_append, List.flatMap_cons, Function.update_self,
    hsame front bucket (fun h => hdisjoint b h b (List.mem_cons_self ..) rfl),
    hsame back bucket (List.nodup_cons.mp hback).1, List.append_assoc]

/-- Replacing a bucket by itself. -/
theorem entries_split_self (buckets : Nat → List Record) {b : Nat}
    (hb : b < nyfsDirhashDefaultBuckets) :
    ∃ front back, entries buckets = front ++ buckets b ++ back ∧
      ∀ bucket, entries (Function.update buckets b bucket) = front ++ bucket ++ back := by
  obtain ⟨front, back, hsplit⟩ := entries_split buckets hb
  have hself := hsplit (buckets b)
  rw [Function.update_eq_self] at hself
  exact ⟨front, back, hself, hsplit⟩

/-! ## Unchanged bytes -/

variable {f g : Nat → UInt8} {buckets : Nat → List Record} {free : Nat}

theorem RecordAt.congr {r : Record} {next : Nat} (h : RecordAt f r next)
    (heq : ∀ o, r.offset ≤ o → o < r.stop → g o = f o) : RecordAt g r next := by
  unfold Record.stop at heq
  constructor
  · rw [bytesAt_congr (fun o hlo hhi => heq o hlo (by omega))]
    exact h.dirent
  · rw [bytesAt_congr (fun o hlo hhi => heq o (by omega) (by omega))]
    exact h.name

theorem Linked.congr {rs : List Record} (h : Linked f rs)
    (heq : ∀ r ∈ rs, ∀ o, r.offset ≤ o → o < r.stop → g o = f o) : Linked g rs := by
  induction rs with
  | nil => trivial
  | cons r rs ih =>
      exact ⟨h.1.congr (heq r (List.mem_cons_self ..)),
        ih h.2 (fun s hs => heq s (List.mem_cons_of_mem _ hs))⟩

/-- A table depends on the bytes before its free offset only. -/
theorem Table.congr (h : Table f buckets free) (heq : ∀ o, o < free → g o = f o) :
    Table g buckets free := by
  have hfree := h.free_ge
  refine { h with header := ?_, head := ?_, linked := ?_ }
  · rw [bytesAt_congr (fun o _ hhi => heq o (by omega))]
    exact h.header
  · intro b hb
    have hb' : b < 16 := hb
    rw [bytesAt_congr (fun o _ hhi => heq o (by unfold bucketOffset at hhi; omega))]
    exact h.head b hb
  · intro b hb
    refine (h.linked b hb).congr (fun r hr o _ hhi => heq o ?_)
    have := (h.valid r (mem_entries.mpr ⟨b, hb, hr⟩)).stop_le
    omega

/-- The offset of a valid record fits its field. -/
theorem linkOf_lt {rs : List Record} (hfree : free < 2 ^ 64) (h : ∀ r ∈ rs, r.Valid free) :
    linkOf rs < 2 ^ 64 := by
  cases rs with
  | nil => decide
  | cons r rs =>
      have := (h r (List.mem_cons_self ..)).stop_le
      unfold Record.stop at this
      simp only [linkOf]
      omega

/-! ## Inserting -/

/-- The bytes after the four writes of an insertion. -/
def insertBytes (f : Nat → UInt8) (r : Record) (oldHead count : Nat) : Nat → UInt8 :=
  splice (splice (splice (splice f r.offset (encodeDirent (r.dirent oldHead))) (r.offset + 24) r.name)
      (bucketOffset (nyfsHashName r.name % nyfsDirhashDefaultBuckets)) (leBytes 8 r.offset)) 0
    (encodeDirhashHeader (tableHeader count (r.offset + recordSize r.name.length)))

/-- An insertion leaves the old records alone. -/
theorem insertBytes_old {r : Record} {oldHead count o : Nat} (hlo : 160 ≤ o) (hhi : o < r.offset) :
    insertBytes f r oldHead count o = f o := by
  have hb : nyfsHashName r.name % nyfsDirhashDefaultBuckets < 16 := Nat.mod_lt _ (by decide)
  rw [insertBytes, splice_of_ge _ (by rw [length_encodeDirhashHeader]; omega),
    splice_of_ge _ (by rw [length_leBytes, bucketOffset]; omega), splice_of_lt _ _ (by omega),
    splice_of_lt _ _ hhi]

/-- The new record lies in the byte map. -/
theorem insertBytes_recordAt {r : Record} {oldHead count : Nat} (h : 160 ≤ r.offset) :
    RecordAt (insertBytes f r oldHead count) r oldHead := by
  have hb : nyfsHashName r.name % nyfsDirhashDefaultBuckets < 16 := Nat.mod_lt _ (by decide)
  constructor
  · have hself := bytesAt_splice_self f r.offset (encodeDirent (r.dirent oldHead))
    rw [length_encodeDirent] at hself
    rw [insertBytes,
      bytesAt_splice_of_disjoint _ (Or.inr (by rw [length_encodeDirhashHeader]; omega)),
      bytesAt_splice_of_disjoint _ (Or.inr (by rw [length_leBytes, bucketOffset]; omega)),
      bytesAt_splice_of_disjoint _ (Or.inl le_rfl), hself]
  · rw [insertBytes,
      bytesAt_splice_of_disjoint _ (Or.inr (by rw [length_encodeDirhashHeader]; omega)),
      bytesAt_splice_of_disjoint _ (Or.inr (by rw [length_leBytes, bucketOffset]; omega)),
      bytesAt_splice_self]

theorem length_entries_insert (buckets : Nat → List Record) {b : Nat} (hb : b < nyfsDirhashDefaultBuckets) (r : Record) :
    (entries (Function.update buckets b (r :: buckets b))).length = (entries buckets).length + 1 := by
  obtain ⟨front, back, hself, hsplit⟩ := entries_split_self buckets hb
  rw [hsplit, hself]
  simp only [List.length_append, List.length_cons]
  omega

theorem entries_insert_perm (buckets : Nat → List Record) {b : Nat} (hb : b < nyfsDirhashDefaultBuckets) (r : Record) :
    (entries (Function.update buckets b (r :: buckets b))).Perm (r :: entries buckets) := by
  obtain ⟨front, back, hself, hsplit⟩ := entries_split_self buckets hb
  rw [hsplit, hself, List.append_assoc, List.cons_append, List.append_assoc]
  exact List.perm_middle

theorem Record.Valid.mono {r : Record} {free' : Nat} (h : r.Valid free) (hle : free ≤ free') :
    r.Valid free' :=
  { h with stop_le := h.stop_le.trans hle }

theorem recordSize_ge (n : Nat) : 24 + n ≤ recordSize n := by
  unfold recordSize
  omega

theorem recordSize_mod (n : Nat) : recordSize n % 8 = 0 :=
  Nat.mul_mod_left ..

/-- The four writes of an insertion put a record in front of its bucket. -/
theorem Table.insert (h : Table f buckets free) {r : Record} (hoffset : r.offset = free)
    (hpos : 0 < r.name.length) (hle : r.name.length ≤ nyfsNameMax) (hino : r.ino < 2 ^ 64)
    (htype : r.type < 256) (hfresh : r.name ∉ (entries buckets).map Record.name) :
    Table (insertBytes f r
        (linkOf (buckets (nyfsHashName r.name % nyfsDirhashDefaultBuckets)))
        ((entries buckets).length + 1))
      (Function.update buckets (nyfsHashName r.name % nyfsDirhashDefaultBuckets)
        (r :: buckets (nyfsHashName r.name % nyfsDirhashDefaultBuckets)))
      (free + recordSize r.name.length) := by
  have hb : nyfsHashName r.name % nyfsDirhashDefaultBuckets < nyfsDirhashDefaultBuckets :=
    Nat.mod_lt _ (by decide)
  generalize hbeq : nyfsHashName r.name % nyfsDirhashDefaultBuckets = b at hb ⊢
  have hfree := h.free_ge
  have hperm := entries_insert_perm buckets hb r
  have hrec := recordSize_ge r.name.length
  have hvalid : r.Valid (free + recordSize r.name.length) :=
    ⟨by omega, by unfold Record.stop; omega, hpos, hle, hino, htype⟩
  have hold : ∀ s ∈ entries buckets, ∀ o, s.offset ≤ o → o < s.stop →
      insertBytes f r (linkOf (buckets b)) ((entries buckets).length + 1) o = f o := by
    intro s hs o hlo hhi
    have hs' := h.valid s hs
    exact insertBytes_old (by have := hs'.offset_ge; omega) (by have := hs'.stop_le; omega)
  refine ⟨?_, ?_, ?_, ?_, ?_, ?_, ?_, by omega, ?_⟩
  · have hself := bytesAt_splice_self (splice (splice (splice f r.offset
      (encodeDirent (r.dirent (linkOf (buckets b))))) (r.offset + 24) r.name)
      (bucketOffset (nyfsHashName r.name % nyfsDirhashDefaultBuckets)) (leBytes 8 r.offset)) 0
      (encodeDirhashHeader (tableHeader ((entries buckets).length + 1)
        (r.offset + recordSize r.name.length)))
    rw [length_encodeDirhashHeader] at hself
    rw [length_entries_insert buckets hb, insertBytes, hself, hoffset]
  · intro c hc
    have hc' : c < 16 := hc
    have hb' : b < 16 := hb
    rw [insertBytes, hbeq,
      bytesAt_splice_of_disjoint _ (Or.inr (by
        rw [length_encodeDirhashHeader, bucketOffset]
        omega))]
    by_cases hcb : c = b
    · subst hcb
      have hself := bytesAt_splice_self (splice (splice f r.offset
        (encodeDirent (r.dirent (linkOf (buckets c))))) (r.offset + 24) r.name) (bucketOffset c)
        (leBytes 8 r.offset)
      rw [length_leBytes] at hself
      rw [hself, Function.update_self]
      rfl
    · rw [bytesAt_splice_of_disjoint _ (by
          rw [length_leBytes]
          simp only [bucketOffset]
          omega),
        bytesAt_splice_of_disjoint _ (Or.inl (by unfold bucketOffset; omega)),
        bytesAt_splice_of_disjoint _ (Or.inl (by unfold bucketOffset; omega)), h.head c hc,
        Function.update_of_ne hcb]
  · intro c hc
    have holdc : Linked (insertBytes f r (linkOf (buckets b)) ((entries buckets).length + 1))
        (buckets c) :=
      (h.linked c hc).congr (fun s hs => hold s (mem_entries.mpr ⟨c, hc, hs⟩))
    by_cases hcb : c = b
    · subst hcb
      rw [Function.update_self]
      exact ⟨insertBytes_recordAt (by omega), holdc⟩
    · rw [Function.update_of_ne hcb]
      exact holdc
  · intro c hc s hs
    by_cases hcb : c = b
    · subst hcb
      rw [Function.update_self] at hs
      rcases List.mem_cons.mp hs with rfl | hs
      · exact hbeq
      · exact h.hash c hc s hs
    · rw [Function.update_of_ne hcb] at hs
      exact h.hash c hc s hs
  · intro s hs
    rcases List.mem_cons.mp (hperm.mem_iff.mp hs) with rfl | hs
    · exact hvalid
    · exact (h.valid s hs).mono (by omega)
  · rw [hperm.pairwise_iff Record.Apart.symm, List.pairwise_cons]
    refine ⟨fun s hs => Or.inr ?_, h.apart⟩
    rw [hoffset]
    exact (h.valid s hs).stop_le
  · rw [(hperm.map Record.name).nodup_iff, List.map_cons, List.nodup_cons]
    exact ⟨hfresh, h.names⟩
  · have := h.free_mod
    have := recordSize_mod r.name.length
    omega

/-! ## Removing -/

/-- The place of the link to the record behind the given ones of a bucket. -/
def linkPlace (b : Nat) (pre : List Record) : Nat :=
  match pre.getLast? with
  | none => bucketOffset b
  | some p => p.offset + 8

/-- The bytes after the two writes of a removal. -/
def removeBytes (f : Nat → UInt8) (link next count free : Nat) : Nat → UInt8 :=
  splice (splice f link (leBytes 8 next)) 0 (encodeDirhashHeader (tableHeader count free))

/-- Writing the link of a record. -/
theorem RecordAt.relink {r : Record} {next : Nat} (h : RecordAt f r next) (next' : Nat) :
    RecordAt (splice f (r.offset + 8) (leBytes 8 next')) r next' := by
  have hlen : (leBytes 8 next').length = 8 := length_leBytes 8 next'
  have hold : bytesAt f r.offset 8 ++ (bytesAt f (r.offset + 8) 8 ++ bytesAt f (r.offset + 8 + 8) 8) =
      leBytes 8 r.ino ++ (leBytes 8 next ++ pack [(4, nyfsHashName r.name), (2, r.name.length),
        (1, r.type), (1, 0)]) := by
    rw [← bytesAt_add, ← bytesAt_add]
    exact h.dirent
  obtain ⟨hino, hrest⟩ := List.append_inj hold (by simp)
  obtain ⟨-, htail⟩ := List.append_inj hrest (by simp)
  constructor
  · have hself := bytesAt_splice_self f (r.offset + 8) (leBytes 8 next')
    rw [hlen] at hself
    change bytesAt _ r.offset (8 + (8 + 8)) = _
    rw [bytesAt_add, bytesAt_add, bytesAt_splice_of_disjoint _ (Or.inl le_rfl), hino, hself,
      bytesAt_splice_of_disjoint _ (Or.inr (by rw [hlen])), htail]
    rfl
  · rw [bytesAt_splice_of_disjoint _ (Or.inr (by rw [hlen]; omega))]
    exact h.name

theorem Linked.append_right {xs ys : List Record} (h : Linked f (xs ++ ys)) : Linked f ys := by
  induction xs with
  | nil => exact h
  | cons x xs ih => exact ih h.2

/-- A record taken out of the middle of a bucket. -/
theorem Linked.unlink {xs post : List Record} {p r : Record}
    (h : Linked f (xs ++ p :: r :: post))
    (heq : ∀ s ∈ xs ++ post, ∀ o, s.offset ≤ o → o < s.stop → g o = f o)
    (hp : RecordAt g p (linkOf post)) : Linked g (xs ++ p :: post) := by
  induction xs with
  | nil => exact ⟨hp, Linked.congr h.2.2 (fun s hs => heq s hs)⟩
  | cons x xs ih =>
      refine ⟨?_, ih h.2 (fun s hs => heq s (List.mem_cons_of_mem _ hs))⟩
      have hlink : linkOf (xs ++ p :: r :: post) = linkOf (xs ++ p :: post) := by
        cases xs <;> rfl
      change RecordAt g x (linkOf (xs ++ p :: post))
      rw [← hlink]
      exact h.1.congr (heq x (List.mem_cons_self ..))

theorem entries_remove_perm (buckets : Nat → List Record) {b : Nat}
    (hb : b < nyfsDirhashDefaultBuckets) {pre post : List Record} {r : Record}
    (hbucket : buckets b = pre ++ r :: post) :
    (entries buckets).Perm (r :: entries (Function.update buckets b (pre ++ post))) := by
  obtain ⟨front, back, hself, hsplit⟩ := entries_split_self buckets hb
  rw [hsplit, hself, hbucket]
  simp only [List.append_assoc, List.cons_append]
  rw [← List.append_assoc front pre, ← List.append_assoc front pre]
  exact List.perm_middle

theorem Table.entries_nodup (h : Table f buckets free) : (entries buckets).Nodup :=
  List.Nodup.of_map _ h.names

/-- Different records of a table share no byte. -/
theorem Table.apart_of_ne (h : Table f buckets free) {r s : Record} (hr : r ∈ entries buckets)
    (hs : s ∈ entries buckets) (hne : r ≠ s) : r.Apart s :=
  h.apart.forall hr hs hne

/-- The link to a record lies in the bucket or in the record before it, so writing it
leaves the other records alone. -/
theorem removeBytes_other {link next count o : Nat} (hlo : 160 ≤ o)
    (hlink : link + 8 ≤ o ∨ o < link) : removeBytes f link next count free o = f o := by
  rw [removeBytes, splice_of_ge _ (by rw [length_encodeDirhashHeader]; omega)]
  rcases hlink with hlink | hlink
  · exact splice_of_ge _ (by rw [length_leBytes]; omega)
  · exact splice_of_lt _ _ hlink

/-- The two writes of a removal take a record out of its bucket. -/
theorem Table.remove (h : Table f buckets free) {b : Nat} (hb : b < nyfsDirhashDefaultBuckets)
    {pre post : List Record} {r : Record} (hbucket : buckets b = pre ++ r :: post) :
    Table (removeBytes f (linkPlace b pre) (linkOf post) ((entries buckets).length - 1) free)
      (Function.update buckets b (pre ++ post)) free := by
  have hb' : b < 16 := hb
  have hfree := h.free_ge
  have hperm := entries_remove_perm buckets hb hbucket
  have hcount : (entries (Function.update buckets b (pre ++ post))).length =
      (entries buckets).length - 1 := by
    rw [hperm.length_eq, List.length_cons, Nat.add_sub_cancel]
  have hsub : ∀ s ∈ entries (Function.update buckets b (pre ++ post)), s ∈ entries buckets :=
    fun s hs => hperm.mem_iff.mpr (List.mem_cons_of_mem _ hs)
  have hmem : ∀ s ∈ buckets b, s ∈ entries buckets := fun s hs => mem_entries.mpr ⟨b, hb, hs⟩
  -- the link lies before the records, or inside the record before the removed one
  have hlink : linkPlace b pre + 8 ≤ 160 ∧ 32 ≤ linkPlace b pre ∧ pre = [] ∨
      ∃ xs p, pre = xs ++ [p] ∧ p ∈ buckets b ∧ linkPlace b pre = p.offset + 8 := by
    rcases List.eq_nil_or_concat' pre with rfl | ⟨xs, p, rfl⟩
    · left
      simp only [linkPlace, List.getLast?_nil, bucketOffset, and_true]
      omega
    · right
      refine ⟨xs, p, rfl, ?_, ?_⟩
      · rw [hbucket]
        simp
      · simp [linkPlace]
  have hother : ∀ s ∈ entries buckets, (∀ p, pre.getLast? = some p → s ≠ p) →
      ∀ o, s.offset ≤ o → o < s.stop →
      removeBytes f (linkPlace b pre) (linkOf post) ((entries buckets).length - 1) free o = f o := by
    intro s hs hne o hlo hhi
    have hs160 := (h.valid s hs).offset_ge
    refine removeBytes_other (by omega) ?_
    rcases hlink with ⟨hlow, -, -⟩ | ⟨xs, p, rfl, hp, hplace⟩
    · exact Or.inl (by omega)
    · rw [hplace]
      rcases h.apart_of_ne hs (hmem p hp) (hne p (by simp)) with hap | hap
      · exact Or.inr (by omega)
      · left
        unfold Record.stop at hap
        omega
  have hheader : ∀ c, c < 16 → bytesAt (removeBytes f (linkPlace b pre) (linkOf post)
      ((entries buckets).length - 1) free) (bucketOffset c) 8 =
      bytesAt (splice f (linkPlace b pre) (leBytes 8 (linkOf post))) (bucketOffset c) 8 := by
    intro c hc
    rw [removeBytes, bytesAt_splice_of_disjoint _ (Or.inr (by
      rw [length_encodeDirhashHeader, bucketOffset]
      omega))]
  refine ⟨?_, ?_, ?_, ?_, ?_, ?_, ?_, hfree, h.free_mod⟩
  · have hself := bytesAt_splice_self (splice f (linkPlace b pre) (leBytes 8 (linkOf post))) 0
      (encodeDirhashHeader (tableHeader ((entries buckets).length - 1) free))
    rw [length_encodeDirhashHeader] at hself
    rw [removeBytes, hself, hcount]
  · intro c hc
    have hc' : c < 16 := hc
    rw [hheader c hc']
    rcases hlink with ⟨hlow, hhigh, rfl⟩ | ⟨xs, p, rfl, hp, hplace⟩
    · have hplace : linkPlace b [] = bucketOffset b := rfl
      rw [hplace]
      by_cases hcb : c = b
      · subst hcb
        have hself := bytesAt_splice_self f (bucketOffset c) (leBytes 8 (linkOf post))
        rw [length_leBytes] at hself
        rw [hself, Function.update_self]
        rfl
      · rw [bytesAt_splice_of_disjoint _ (by
          rw [length_leBytes]
          simp only [bucketOffset]
          omega), h.head c hc, Function.update_of_ne hcb]
    · have hp160 := (h.valid p (hmem p hp)).offset_ge
      rw [bytesAt_splice_of_disjoint _ (Or.inl (by unfold bucketOffset; omega)), h.head c hc]
      by_cases hcb : c = b
      · subst hcb
        rw [Function.update_self, hbucket]
        cases xs <;> rfl
      · rw [Function.update_of_ne hcb]
  · intro c hc
    by_cases hcb : c = b
    · subst hcb
      rw [Function.update_self]
      have hlinked := h.linked c hc
      have hnodup : (buckets c).Nodup := by
        obtain ⟨front, back, hself, -⟩ := entries_split_self buckets hc
        have hall := h.entries_nodup
        rw [hself] at hall
        exact (List.nodup_append.mp (List.nodup_append.mp hall).1).2.1
      rw [hbucket] at hlinked hnodup
      rcases hlink with ⟨-, -, rfl⟩ | ⟨xs, p, rfl, hp, hplace⟩
      · refine Linked.congr hlinked.2 (fun s hs => ?_)
        exact hother s (hmem s (by rw [hbucket]; exact List.mem_cons_of_mem _ hs))
          (by simp)
      · rw [List.append_assoc, List.singleton_append] at hlinked hnodup ⊢
        refine hlinked.unlink (fun s hs => ?_) ?_
        · have hsb : s ∈ buckets c := by
            rw [hbucket]
            rcases List.mem_append.mp hs with hs | hs
            · simp [hs]
            · simp [hs]
          refine hother s (hmem s hsb) ?_
          intro q hq
          simp only [List.getLast?_append, List.getLast?_singleton, Option.some_or,
            Option.some.injEq] at hq
          subst hq
          rintro rfl
          have hcount := List.nodup_iff_count_le_one.mp hnodup s
          have hone : 1 ≤ List.count s (xs ++ post) := List.one_le_count_iff.mpr hs
          simp only [List.count_append, List.count_cons_self, List.count_cons] at hcount hone
          omega
        · have hat : RecordAt f p (linkOf (r :: post)) :=
            (Linked.append_right hlinked).1
          have hrelink := hat.relink (linkOf post)
          have hp160 := (h.valid p (hmem p hp)).offset_ge
          rw [removeBytes, hplace]
          refine hrelink.congr (fun o hlo hhi => ?_)
          exact splice_of_ge _ (by rw [length_encodeDirhashHeader]; omega)
    · rw [Function.update_of_ne hcb]
      refine (h.linked c hc).congr (fun s hs => ?_)
      refine hother s (mem_entries.mpr ⟨c, hc, hs⟩) ?_
      rintro p hp rfl
      have hpb : s ∈ buckets b := by
        rw [hbucket]
        exact List.mem_append_left _ (List.mem_of_getLast? hp)
      exact hcb ((h.hash c hc s hs).symm.trans (h.hash b hb s hpb))
  · intro c hc s hs
    by_cases hcb : c = b
    · subst hcb
      rw [Function.update_self] at hs
      refine h.hash c hc s ?_
      rw [hbucket]
      rcases List.mem_append.mp hs with hs | hs
      · exact List.mem_append_left _ hs
      · exact List.mem_append_right _ (List.mem_cons_of_mem _ hs)
    · rw [Function.update_of_ne hcb] at hs
      exact h.hash c hc s hs
  · intro s hs
    exact h.valid s (hsub s hs)
  · have hall := h.apart
    rw [hperm.pairwise_iff Record.Apart.symm, List.pairwise_cons] at hall
    exact hall.2
  · have hall := h.names
    rw [(hperm.map Record.name).nodup_iff, List.map_cons, List.nodup_cons] at hall
    exact hall.2

end Nyfs
end Nyxis
