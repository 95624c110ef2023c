import Nyxis.Process.Image

/-!
# The loader in 64-bit arithmetic

The functions of {lit}`kernel/process/elf.c` once more, with every sum, difference and product
taken modulo a power of two and every request for bytes of the file on record.  The record also
says whether an operation has ever left the range of its type.  No file makes that happen, so
these functions do what the loader over natural numbers does.

Main results:

- Definition {lit}`Mirrors`: what a computation in 64-bit arithmetic computes, as long as its
  record is clean.
- Theorem {lit}`mirrors_elfLoad`: the record of the loader stays clean.
- Theorem {lit}`user_elf_faithful`: what the loader leaves in a fresh address space.
-/

namespace Nyxis
namespace Process

open Mm

/-! ## The record of a run -/

/-- What the loader reads of a file. -/
inductive Part
  | header
  | table
  | segment
  deriving DecidableEq

/-- A call of {lit}`read_exact`. -/
structure Request where
  part : Part
  offset : Nat
  len : Nat

/-- The memory, the calls of {lit}`read_exact` so far, and whether an operation on addresses or
sizes has left the range of its type. -/
structure LoadState where
  memory : Memory
  requests : List Request
  wrapped : Bool

/-- The computations of the loader. -/
abbrev LoadM := Eff Nstatus LoadState

/-- A computation on memory as a part of the loader. -/
def viaMemory {α : Type} (c : MemM α) : LoadM α :=
  fun st => ((c st.memory).1, { st with memory := (c st.memory).2 })

/-- An answer that does not depend on the state. -/
def answer {α : Type} : Except Nstatus α → LoadM α
  | .error e => Eff.fail e
  | .ok x => pure x

/-- The result of an operation on 64-bit numbers, given the result over the integers. -/
def arith (exact : Int) : LoadM Nat :=
  fun st => (.ok (exact % 2 ^ 64).toNat,
    { st with wrapped := st.wrapped || decide (exact < 0 ∨ 2 ^ 64 ≤ exact) })

/-- {lit}`read_exact`, on record. -/
def request (file : FileView) (part : Part) (offset len : Nat) : LoadM (List UInt8) := do
  Eff.modify (fun st => { st with requests := st.requests ++ [⟨part, offset, len⟩] })
  answer (readExact file offset len)

/-! ## The functions -/

/-- {lit}`align_up`; to clear the low bits is to round down to a multiple of a power of two. -/
def alignUpU64 (v a : Nat) : LoadM Nat := do
  let sum ← arith (v + a)
  let last ← arith (sum - 1)
  pure (last / a * a)

/-- The number of bytes that {lit}`load_segment` copies to one page. -/
def copyLenU64 (ph : ElfPhdr) (segOff : Nat) : LoadM Nat :=
  if segOff < ph.filesz then do
    let remain ← arith (ph.filesz - segOff)
    pure (if remain < pageSize then remain else pageSize)
  else
    pure 0

/-- The part of {lit}`load_segment` that fills one page from the file. -/
def fillPageU64 (file : FileView) (ph : ElfPhdr) (segOff phys : Nat) : LoadM Unit := do
  let copyLen ← copyLenU64 ph segOff
  if copyLen > 0 then do
    let offset ← arith (ph.offset + segOff)
    let bytes ← request file .segment offset copyLen
    viaMemory (Eff.modify (copyIn phys bytes))
  else
    pure ()

/-- The body of the loop of {lit}`load_segment`. -/
def loadPageU64 (file : FileView) (s : Nat) (ph : ElfPhdr) (page : Nat) : LoadM Nat := do
  let segOff ← arith (page - ph.vaddr)
  let phys ← viaMemory pfaAlloc
  match ← Eff.attempt (do
      fillPageU64 file ph segOff phys
      viaMemory (pagingMapPage s phys page (segmentFlags ph))) with
  | .error e =>
      Eff.ignore (viaMemory (pfaFree phys))
      Eff.fail e
  | .ok () => pure phys

/-- The loop of {lit}`load_segment`.  It is given the number of pages between the two addresses;
a loop that is not done by then has wrapped around, which is on record. -/
def loadPagesU64 (file : FileView) (s : Nat) (ph : ElfPhdr) (vaddrEnd : Nat) :
    (n page : Nat) → LoadM Unit
  | 0, _ => pure ()
  | n + 1, page =>
      if page < vaddrEnd then do
        let _ ← loadPageU64 file s ph page
        let next ← arith (page + pageSize)
        loadPagesU64 file s ph vaddrEnd n next
      else
        pure ()

/-- {lit}`load_segment`. -/
def loadSegmentU64 (file : FileView) (s : Nat) (ph : ElfPhdr) : LoadM Unit := do
  let last ← arith (ph.vaddr + ph.memsz)
  let vaddrEnd ← alignUpU64 last pageSize
  loadPagesU64 file s ph vaddrEnd (pageCount ph.vaddr vaddrEnd) ph.vaddr

/-- The second loop of {lit}`elf_load`. -/
def loadSegmentsU64 (file : FileView) (s : Nat) : List ElfPhdr → LoadM Unit
  | [] => pure ()
  | ph :: phs =>
      if ph.type ≠ ptLoad then
        loadSegmentsU64 file s phs
      else do
        loadSegmentU64 file s ph
        loadSegmentsU64 file s phs

/-- Whether a segment that may be run holds the entry point. -/
def holdsEntryU64 (entry : Nat) (ph : ElfPhdr) : LoadM Bool :=
  if hasFlag ph.flags pfX = true ∧ entry ≥ ph.vaddr then do
    let distance ← arith (entry - ph.vaddr)
    pure (decide (distance < ph.memsz))
  else
    pure false

/-- The body of the first loop of {lit}`elf_load`. -/
def checkSegmentU64 (fileSize entry : Nat) (info : ImageInfo) (ph : ElfPhdr) : LoadM ImageInfo :=
  if ph.type ≠ ptLoad then pure info
  else if ph.memsz = 0 ∨ ph.filesz > ph.memsz then Eff.fail .NinvalidFormat
  else if ph.offset > fileSize then Eff.fail .NinvalidFormat
  else do
    let room ← arith (fileSize - ph.offset)
    if ph.filesz > room then Eff.fail .NinvalidFormat
    else if ph.vaddr % pageSize ≠ 0 then Eff.fail .NinvalidFormat
    else if ph.vaddr < userElfMinVaddr ∨ ph.vaddr ≥ userElfMaxVaddr then Eff.fail .NinvalidFormat
    else do
      let space ← arith (userElfMaxVaddr - ph.vaddr)
      if ph.memsz > space then Eff.fail .NinvalidFormat
      else do
        let last ← arith (ph.vaddr + ph.memsz)
        let segEnd ← alignUpU64 last pageSize
        let inside ← holdsEntryU64 entry ph
        pure {
          imageEnd := if segEnd > info.imageEnd then segEnd else info.imageEnd
          entryOk := info.entryOk || inside
          anyLoad := true }

/-- The first loop of {lit}`elf_load`. -/
def checkSegmentsU64 (fileSize entry : Nat) : ImageInfo → List ElfPhdr → LoadM ImageInfo
  | info, [] => pure info
  | info, ph :: phs => do
      let info' ← checkSegmentU64 fileSize entry info ph
      checkSegmentsU64 fileSize entry info' phs

/-- The part of {lit}`elf_load` behind the checks of the file header. -/
def loadProgramU64 (file : FileView) (s fileSize : Nat) (hdr : ElfHeader) : LoadM (Nat × Nat) := do
  let tableSize ← arith (hdr.phnum * elfPhdrSize)
  let room ← arith (fileSize - hdr.phoff)
  if tableSize > room then Eff.fail .NinvalidFormat
  else do
    let table ← request file .table hdr.phoff tableSize
    let info ← checkSegmentsU64 fileSize hdr.entry
      { imageEnd := 0, entryOk := false, anyLoad := false } (phdrTable table hdr.phnum)
    if !info.anyLoad || !info.entryOk then Eff.fail .NinvalidFormat
    else do
      loadSegmentsU64 file s (phdrTable table hdr.phnum)
      pure (hdr.entry, info.imageEnd)

/-- {lit}`elf_load`. -/
def elfLoadU64 (file : FileView) (s : Nat) : LoadM (Nat × Nat) := do
  let fileSize ← answer file.size
  if fileSize = 0 ∨ fileSize > elfMaxFile then Eff.fail .NinvalidFormat
  else do
    let header ← request file .header 0 elfHeaderSize
    let hdr := decodeHeader header
    if hdr.magic ≠ elfMagic ∨ hdr.cls ≠ elfClass64 ∨ hdr.data ≠ elfData2Lsb ∨
        hdr.type ≠ etExec ∨ hdr.machine ≠ emX8664 then Eff.fail .Nunsupported
    else if hdr.phentsize ≠ elfPhdrSize ∨ hdr.phnum = 0 ∨ hdr.phnum > elfMaxPhnum then
      Eff.fail .NinvalidFormat
    else if hdr.phoff > fileSize then Eff.fail .NinvalidFormat
    else loadProgramU64 file s fileSize hdr

/-! ## Clean records -/

/-- A request for program headers or for data of a segment stays within the file. -/
def Request.Inside (file : FileView) (r : Request) : Prop :=
  r.part ≠ .header → ∀ n, file.size = .ok n → r.offset + r.len ≤ n

/-- No operation has left the range of its type, and no request has left the file. -/
structure Clean (file : FileView) (st : LoadState) : Prop where
  unwrapped : st.wrapped = false
  inside : ∀ r ∈ st.requests, r.Inside file

/-- From a clean record on, a computation does what another one does to memory, and leaves a
clean record. -/
def Mirrors (file : FileView) {α : Type} (t : LoadM α) (c : MemM α) : Prop :=
  ∀ st, Clean file st → Eff.Post t st (fun r st' =>
    r = (c st.memory).1 ∧ st'.memory = (c st.memory).2 ∧ Clean file st')

variable {file : FileView} {α β : Type}

theorem Mirrors.pure (x : α) : Mirrors file (pure x : LoadM α) (pure x) :=
  fun _ hst => ⟨rfl, rfl, hst⟩

theorem Mirrors.fail (e : Nstatus) : Mirrors file (Eff.fail e : LoadM α) (Eff.fail e) :=
  fun _ hst => ⟨rfl, rfl, hst⟩

theorem Mirrors.viaMemory (c : MemM α) : Mirrors file (Process.viaMemory c) c :=
  fun _ hst => ⟨rfl, rfl, hst.unwrapped, hst.inside⟩

theorem Mirrors.bind {t : LoadM α} {c : MemM α} {f : α → LoadM β} {g : α → MemM β}
    (h : Mirrors file t c) (hf : ∀ x, Mirrors file (f x) (g x)) :
    Mirrors file (t >>= f) (c >>= g) := by
  intro st hst
  obtain ⟨hout, hmem, hclean⟩ := h st hst
  cases ht : t st with
  | mk r st' =>
      rw [ht] at hout hmem hclean
      cases hc : c st.memory with
      | mk r' m' =>
          rw [hc] at hout hmem
          dsimp only at hout hmem hclean
          subst hout hmem
          cases r with
          | error e =>
              rw [Eff.bind_error hc]
              exact Eff.post_bind_error ht ⟨rfl, rfl, hclean⟩
          | ok x =>
              rw [Eff.bind_ok hc]
              exact Eff.post_bind_ok ht (hf x st' hclean)

theorem Mirrors.attempt {t : LoadM α} {c : MemM α} (h : Mirrors file t c) :
    Mirrors file (Eff.attempt t) (Eff.attempt c) := by
  intro st hst
  obtain ⟨hout, hmem, hclean⟩ := h st hst
  exact ⟨congrArg Except.ok hout, hmem, hclean⟩

theorem Mirrors.ignore {t : LoadM α} {c : MemM α} (h : Mirrors file t c) :
    Mirrors file (Eff.ignore t) (Eff.ignore c) := by
  intro st hst
  obtain ⟨-, hmem, hclean⟩ := h st hst
  exact ⟨rfl, hmem, hclean⟩

/-- An operation that stays in the range of its type. -/
theorem Mirrors.arith {exact : Int} {n : Nat} {f : Nat → LoadM α} {c : MemM α} (hn : exact = n)
    (hlt : n < 2 ^ 64) (h : Mirrors file (f n) c) : Mirrors file (Process.arith exact >>= f) c := by
  intro st hst
  subst hn
  have hval : (((n : Int) % 2 ^ 64).toNat) = n := by omega
  have hflag : decide ((n : Int) < 0 ∨ 2 ^ 64 ≤ (n : Int)) = false := by
    apply decide_eq_false
    omega
  have hrun : Process.arith (n : Int) st = (.ok n, st) := by
    unfold Process.arith
    rw [hval, hflag, Bool.or_false]
  exact Eff.post_bind_ok hrun (h st hst)

theorem Mirrors.answer {r : Except Nstatus α} {f : α → LoadM β} {c : MemM β}
    (herr : ∀ e, r = .error e → c = Eff.fail e) (hok : ∀ x, r = .ok x → Mirrors file (f x) c) :
    Mirrors file (Process.answer r >>= f) c := by
  cases r with
  | error e =>
      rw [herr e rfl]
      exact Mirrors.fail e
  | ok x => exact hok x rfl

/-- A request that stays within the file. -/
theorem Mirrors.request {part : Part} {offset len : Nat} {f : List UInt8 → LoadM β} {c : MemM β}
    (hin : (⟨part, offset, len⟩ : Request).Inside file)
    (herr : ∀ e, readExact file offset len = .error e → c = Eff.fail e)
    (hok : ∀ bytes, readExact file offset len = .ok bytes → Mirrors file (f bytes) c) :
    Mirrors file (Process.request file part offset len >>= f) c := by
  intro st hst
  have hclean : Clean file { st with requests := st.requests ++ [⟨part, offset, len⟩] } := by
    refine ⟨hst.unwrapped, fun r hr => ?_⟩
    rcases List.mem_append.mp hr with hr | hr
    · exact hst.inside r hr
    · rw [List.mem_singleton.mp hr]
      exact hin
  exact Mirrors.answer herr hok _ hclean

/-! ## Every step of the loader -/

theorem mirrors_alignUp {v : Nat} {f : Nat → LoadM α} {c : MemM α} (hv : v < 2 ^ 63)
    (h : Mirrors file (f (alignUp v pageSize)) c) :
    Mirrors file (alignUpU64 v pageSize >>= f) c := by
  have hsize : pageSize = 4096 := rfl
  unfold alignUpU64
  rw [Eff.bind_assoc_eq]
  refine Mirrors.arith (n := v + pageSize) (by push_cast; rfl) (by omega) ?_
  rw [Eff.bind_assoc_eq]
  refine Mirrors.arith (n := v + pageSize - 1) (by omega) (by omega) ?_
  have hval : (v + pageSize - 1) / pageSize * pageSize = alignUp v pageSize := by
    rw [alignUp, Nat.mod_eq_of_lt (by omega)]
  rw [hval]
  exact h

/-- What the checks of the headers give the second pass over them. -/
structure SegmentAdmitted (file : FileView) (ph : ElfPhdr) : Prop where
  aligned : ph.vaddr % pageSize = 0
  upper : ph.vaddr + ph.memsz ≤ userElfMaxVaddr
  filesz : ph.filesz ≤ ph.memsz
  place : ph.offset + ph.filesz < 2 ^ 63
  inside : ∀ n, file.size = .ok n → ph.offset + ph.filesz ≤ n

variable {ph : ElfPhdr}

theorem mirrors_copyLen (hadm : SegmentAdmitted file ph) {segOff : Nat} {f : Nat → LoadM α} {c : MemM α}
    (h : Mirrors file (f (copyLen ph segOff)) c) :
    Mirrors file (copyLenU64 ph segOff >>= f) c := by
  unfold copyLenU64
  by_cases hoff : segOff < ph.filesz
  · have hplace := hadm.place
    have hval : copyLen ph segOff =
        if ph.filesz - segOff < pageSize then ph.filesz - segOff else pageSize := by
      rw [copyLen, if_pos hoff]
      split <;> omega
    rw [if_pos hoff, Eff.bind_assoc_eq]
    refine Mirrors.arith (n := ph.filesz - segOff) (by omega) (by omega) ?_
    rw [hval] at h
    exact h
  · rw [if_neg hoff]
    rw [copyLen, if_neg hoff] at h
    exact h

theorem mirrors_fillPage (hadm : SegmentAdmitted file ph) (page phys : Nat) :
    Mirrors file (fillPageU64 file ph (page - ph.vaddr) phys) (fillPage file ph page phys) := by
  unfold fillPageU64
  refine mirrors_copyLen hadm ?_
  by_cases hlen : copyLen ph (page - ph.vaddr) > 0
  · have hoff : page - ph.vaddr < ph.filesz := by
      by_contra hcon
      rw [copyLen, if_neg hcon] at hlen
      exact Nat.lt_irrefl 0 hlen
    have hcopy : copyLen ph (page - ph.vaddr) ≤ ph.filesz - (page - ph.vaddr) := by
      rw [copyLen, if_pos hoff]
      exact Nat.min_le_left _ _
    have hplace := hadm.place
    rw [if_pos hlen, fillPage, if_pos hlen]
    refine Mirrors.arith (n := ph.offset + (page - ph.vaddr)) (by omega) (by omega) ?_
    refine Mirrors.request (fun _ n hn => ?_) (fun e he => ?_) (fun bytes hbytes => ?_)
    · have := hadm.inside n hn
      dsimp only
      omega
    · rw [he]
    · rw [hbytes]
      exact Mirrors.viaMemory _
  · have hfill : fillPage file ph page phys = pure () := if_neg hlen
    rw [if_neg hlen, hfill]
    exact Mirrors.pure ()

theorem mirrors_loadPage (hadm : SegmentAdmitted file ph) (s : Nat) {page : Nat} (hlo : ph.vaddr ≤ page)
    (hhi : page < 2 ^ 63) :
    Mirrors file (loadPageU64 file s ph page)
      (mapFreshPage s page (segmentFlags ph) (fillPage file ph page)) := by
  unfold loadPageU64 mapFreshPage
  refine Mirrors.arith (n := page - ph.vaddr) (by omega) (by omega) ?_
  refine Mirrors.bind (Mirrors.viaMemory _) (fun phys => ?_)
  refine Mirrors.bind (Mirrors.attempt (Mirrors.bind (mirrors_fillPage hadm page phys)
    (fun _ => Mirrors.viaMemory _))) (fun r => ?_)
  cases r with
  | error e => exact Mirrors.bind (Mirrors.ignore (Mirrors.viaMemory _)) (fun _ => Mirrors.fail e)
  | ok _ => exact Mirrors.pure phys

/-- The loop over the pages of a segment, with as many pages left as the number says. -/
theorem mirrors_loadPages (hadm : SegmentAdmitted file ph) (s n : Nat) {page : Nat} (hlo : ph.vaddr ≤ page)
    (hhi : page + n * pageSize < 2 ^ 63) :
    Mirrors file (loadPagesU64 file s ph (page + n * pageSize) n page)
      (loadPages file s ph n page) := by
  have hsize : pageSize = 4096 := rfl
  induction n generalizing page with
  | zero => exact Mirrors.pure ()
  | succ n ih =>
      have hmul : page + (n + 1) * pageSize = page + pageSize + n * pageSize := by ring
      rw [hmul] at hhi ⊢
      have hmore : page < page + pageSize + n * pageSize := by omega
      unfold loadPagesU64 loadPages
      rw [if_pos hmore]
      refine Mirrors.bind (mirrors_loadPage hadm s hlo (by omega)) (fun _ => ?_)
      refine Mirrors.arith (n := page + pageSize) (by push_cast; rfl) (by omega) ?_
      exact ih (by omega) hhi

theorem mirrors_loadSegment (hadm : SegmentAdmitted file ph) (s : Nat) :
    Mirrors file (loadSegmentU64 file s ph) (loadSegment file s ph) := by
  have hmax : userElfMaxVaddr = 0x0000700000000000 := rfl
  have hsize : pageSize = 4096 := rfl
  have hupper := hadm.upper
  obtain ⟨hle, hlt, hmod⟩ := alignUp_spec (v := ph.vaddr + ph.memsz) (by omega)
  have hcount := pageCount_mul hadm.aligned hmod (by omega)
  unfold loadSegmentU64 loadSegment
  refine Mirrors.arith (n := ph.vaddr + ph.memsz) (by push_cast; rfl) (by omega) ?_
  refine mirrors_alignUp (by omega) ?_
  have hpages := mirrors_loadPages hadm s
    (pageCount ph.vaddr (alignUp (ph.vaddr + ph.memsz) pageSize)) (le_refl ph.vaddr)
    (by rw [hcount]; omega)
  rw [hcount] at hpages
  exact hpages

theorem mirrors_loadSegments (s : Nat) (phs : List ElfPhdr)
    (hadm : ∀ ph ∈ phs, ph.type = ptLoad → SegmentAdmitted file ph) :
    Mirrors file (loadSegmentsU64 file s phs) (loadSegments file s phs) := by
  induction phs with
  | nil => exact Mirrors.pure ()
  | cons ph phs ih =>
      have hrest := ih (fun q hq => hadm q (List.mem_cons_of_mem ph hq))
      unfold loadSegmentsU64 loadSegments
      by_cases htype : ph.type = ptLoad
      · rw [if_neg (not_not.mpr htype), if_pos htype]
        exact Mirrors.bind (mirrors_loadSegment (hadm ph List.mem_cons_self htype) s) (fun _ => hrest)
      · rw [if_pos htype, if_neg htype]
        exact hrest

/-! ## The checks of the headers -/

theorem mirrors_holdsEntry {entry : Nat} (hentry : entry < 2 ^ 64) {f : Bool → LoadM α} {c : MemM α}
    (h : Mirrors file (f (hasFlag ph.flags pfX && entry ≥ ph.vaddr && entry - ph.vaddr < ph.memsz)) c) :
    Mirrors file (holdsEntryU64 entry ph >>= f) c := by
  unfold holdsEntryU64
  by_cases hheld : hasFlag ph.flags pfX = true ∧ entry ≥ ph.vaddr
  · rw [hheld.1, decide_eq_true hheld.2, Bool.and_true, Bool.true_and] at h
    rw [if_pos hheld, Eff.bind_assoc_eq]
    exact Mirrors.arith (n := entry - ph.vaddr) (by omega) (by omega) h
  · have hfalse : (hasFlag ph.flags pfX && decide (entry ≥ ph.vaddr)) = false := by
      rw [Bool.and_eq_false_iff, decide_eq_false_iff_not]
      rw [not_and_or, Bool.not_eq_true] at hheld
      exact hheld
    rw [hfalse, Bool.false_and] at h
    rw [if_neg hheld]
    exact h

/-- The checks of one segment. -/
theorem mirrors_checkSegment {fileSize entry : Nat} (hsize : fileSize < 2 ^ 63)
    (hentry : entry < 2 ^ 64) (info : ImageInfo) {f : ImageInfo → LoadM α} {c : MemM α}
    (herr : ∀ e, checkSegment fileSize entry info ph = .error e → c = Eff.fail e)
    (hok : ∀ info', checkSegment fileSize entry info ph = .ok info' → Mirrors file (f info') c) :
    Mirrors file (checkSegmentU64 fileSize entry info ph >>= f) c := by
  have hmax : userElfMaxVaddr = 0x0000700000000000 := rfl
  have hrefused : checkSegment fileSize entry info ph = .error .NinvalidFormat →
      Mirrors file (Eff.fail .NinvalidFormat >>= f) c := by
    intro hval
    rw [herr _ hval]
    exact Mirrors.fail _
  unfold checkSegmentU64
  unfold checkSegment at hok hrefused
  by_cases htype : ph.type ≠ ptLoad
  · rw [if_pos htype] at hok ⊢
    exact hok info rfl
  rw [if_neg htype] at hok hrefused ⊢
  by_cases hmem : ph.memsz = 0 ∨ ph.filesz > ph.memsz
  · rw [if_pos hmem] at hrefused ⊢
    exact hrefused rfl
  rw [if_neg hmem] at hok hrefused ⊢
  by_cases hoffset : ph.offset > fileSize
  · rw [if_pos (Or.inl hoffset)] at hrefused
    rw [if_pos hoffset]
    exact hrefused rfl
  rw [if_neg hoffset, Eff.bind_assoc_eq]
  refine Mirrors.arith (n := fileSize - ph.offset) (by omega) (by omega) ?_
  by_cases hroom : ph.filesz > fileSize - ph.offset
  · rw [if_pos (Or.inr hroom)] at hrefused
    rw [if_pos hroom]
    exact hrefused rfl
  rw [if_neg (not_or.mpr ⟨hoffset, hroom⟩)] at hok hrefused
  rw [if_neg hroom]
  by_cases halign : ph.vaddr % pageSize ≠ 0
  · rw [if_pos halign] at hrefused ⊢
    exact hrefused rfl
  rw [if_neg halign] at hok hrefused ⊢
  by_cases hrange : ph.vaddr < userElfMinVaddr ∨ ph.vaddr ≥ userElfMaxVaddr
  · rw [if_pos hrange] at hrefused ⊢
    exact hrefused rfl
  rw [if_neg hrange] at hok hrefused ⊢
  rw [not_or] at hrange
  rw [Eff.bind_assoc_eq]
  refine Mirrors.arith (n := userElfMaxVaddr - ph.vaddr) (by omega) (by omega) ?_
  by_cases hspace : ph.memsz > userElfMaxVaddr - ph.vaddr
  · rw [if_pos hspace] at hrefused ⊢
    exact hrefused rfl
  rw [if_neg hspace] at hok ⊢
  rw [Eff.bind_assoc_eq]
  refine Mirrors.arith (n := ph.vaddr + ph.memsz) (by push_cast; rfl) (by omega) ?_
  rw [Eff.bind_assoc_eq]
  refine mirrors_alignUp (by omega) ?_
  rw [Eff.bind_assoc_eq]
  refine mirrors_holdsEntry hentry (hok _ ?_)
  have hlargest : max info.imageEnd (alignUp (ph.vaddr + ph.memsz) pageSize) =
      if alignUp (ph.vaddr + ph.memsz) pageSize > info.imageEnd then
        alignUp (ph.vaddr + ph.memsz) pageSize else info.imageEnd := by
    split <;> omega
  rw [hlargest]

/-- The checks of all segments. -/
theorem mirrors_checkSegments {fileSize entry : Nat} (hsize : fileSize < 2 ^ 63)
    (hentry : entry < 2 ^ 64) (phs : List ElfPhdr) (info : ImageInfo) {f : ImageInfo → LoadM α}
    {c : MemM α}
    (herr : ∀ e, phs.foldlM (checkSegment fileSize entry) info = .error e → c = Eff.fail e)
    (hok : ∀ info', phs.foldlM (checkSegment fileSize entry) info = .ok info' →
      Mirrors file (f info') c) :
    Mirrors file (checkSegmentsU64 fileSize entry info phs >>= f) c := by
  induction phs generalizing info with
  | nil => exact hok info rfl
  | cons ph phs ih =>
      unfold checkSegmentsU64
      rw [Eff.bind_assoc_eq]
      rw [List.foldlM_cons] at herr hok
      refine mirrors_checkSegment hsize hentry info (fun e he => herr e ?_) (fun info' hinfo => ?_)
      · rw [he]
        rfl
      · rw [hinfo] at herr hok
        exact ih info' herr hok

/-! ## The whole loader -/

/-- The checks of the headers, one behind the other. -/
theorem readImage_eq (file : FileView) : readImage file =
    (file.size.bind fun fileSize =>
      if fileSize = 0 ∨ fileSize > elfMaxFile then .error .NinvalidFormat
      else (readExact file 0 elfHeaderSize).bind fun header =>
        if (decodeHeader header).magic ≠ elfMagic ∨ (decodeHeader header).cls ≠ elfClass64 ∨
            (decodeHeader header).data ≠ elfData2Lsb ∨ (decodeHeader header).type ≠ etExec ∨
            (decodeHeader header).machine ≠ emX8664 then .error .Nunsupported
        else if (decodeHeader header).phentsize ≠ elfPhdrSize ∨ (decodeHeader header).phnum = 0 ∨
            (decodeHeader header).phnum > elfMaxPhnum then .error .NinvalidFormat
        else if (decodeHeader header).phoff > fileSize ∨
            (decodeHeader header).phnum * elfPhdrSize > fileSize - (decodeHeader header).phoff then
          .error .NinvalidFormat
        else (readExact file (decodeHeader header).phoff
            ((decodeHeader header).phnum * elfPhdrSize)).bind fun table =>
          ((phdrTable table (decodeHeader header).phnum).foldlM
            (checkSegment fileSize (decodeHeader header).entry)
            { imageEnd := 0, entryOk := false, anyLoad := false }).bind fun info =>
          if !info.anyLoad || !info.entryOk then .error .NinvalidFormat
          else .ok (phdrTable table (decodeHeader header).phnum, (decodeHeader header).entry,
            info.imageEnd)) := by
  unfold readImage
  cases file.size with
  | error e => rfl
  | ok n =>
      by_cases hn : n = 0 ∨ n > elfMaxFile
      · simp only [bind, Except.bind, hn, if_true]
        rfl
      · simp only [bind, Except.bind, hn, if_false]
        cases readExact file 0 elfHeaderSize with
        | error e => rfl
        | ok header =>
            simp only [pure, Except.pure, throw, throwThe, MonadExceptOf.throw]
            split
            · rfl
            split
            · rfl
            split
            · rfl
            rfl

variable {s : Nat}

theorem elfLoad_of_error {e : Nstatus} (h : readImage file = .error e) :
    elfLoad file s = Eff.fail e := by
  rw [elfLoad, h]

theorem elfLoad_of_ok {phdrs : List ElfPhdr} {entry imageEnd : Nat}
    (h : readImage file = .ok (phdrs, entry, imageEnd)) :
    elfLoad file s = (do loadSegments file s phdrs; pure (entry, imageEnd)) := by
  rw [elfLoad, h]

/-- A refused file. -/
theorem mirrors_refused {e : Nstatus} (h : readImage file = .error e) :
    Mirrors file (Eff.fail e) (elfLoad file s) := by
  rw [elfLoad_of_error h]
  exact Mirrors.fail e

theorem admitted_of_checks {fileSize entry : Nat} {info info' : ImageInfo} {phs : List ElfPhdr}
    (hsize : file.size = .ok fileSize) (hmax : fileSize ≤ elfMaxFile)
    (h : phs.foldlM (checkSegment fileSize entry) info = .ok info') :
    ∀ ph ∈ phs, ph.type = ptLoad → SegmentAdmitted file ph := by
  obtain ⟨-, -, hfits⟩ := checkSegments_found phs h
  obtain ⟨-, -, hseg⟩ := checkSegments_spec phs h
  have hfile : elfMaxFile = 64 * 1024 * 1024 := rfl
  intro ph hph htype
  have hok := hseg ph hph htype
  have hin := (hfits ph hph htype).inside
  refine ⟨hok.aligned, hok.upper, (hfits ph hph htype).filesz, by omega, fun n hn => ?_⟩
  rw [hsize] at hn
  rw [← Except.ok.inj hn]
  exact hin

/-- The loader works within the range of its types and within the file, whatever the file says. -/
theorem mirrors_elfLoad (file : FileView) (s : Nat) :
    Mirrors file (elfLoadU64 file s) (elfLoad file s) := by
  have himage := readImage_eq file
  unfold elfLoadU64
  refine Mirrors.answer (fun e he => ?_) (fun fileSize hsize => ?_)
  · rw [he] at himage
    exact elfLoad_of_error himage
  rw [hsize] at himage
  dsimp only [Except.bind] at himage
  by_cases hn : fileSize = 0 ∨ fileSize > elfMaxFile
  · rw [if_pos hn] at himage ⊢
    exact mirrors_refused himage
  rw [if_neg hn] at himage ⊢
  refine Mirrors.request (fun hcon => absurd rfl hcon) (fun e he => ?_) (fun header hheader => ?_)
  · rw [he] at himage
    exact elfLoad_of_error himage
  rw [hheader] at himage
  dsimp only at himage ⊢
  obtain ⟨hdr, hhdr⟩ : ∃ hdr, hdr = decodeHeader header := ⟨_, rfl⟩
  rw [← hhdr] at himage ⊢
  split
  next hcon =>
    rw [if_pos hcon] at himage
    exact mirrors_refused himage
  next hmagic =>
  rw [if_neg hmagic] at himage
  split
  next hcon =>
    rw [if_pos hcon] at himage
    exact mirrors_refused himage
  next hcount =>
  rw [if_neg hcount] at himage
  split
  next hcon =>
    rw [if_pos (Or.inl hcon)] at himage
    exact mirrors_refused himage
  next hplace =>
  rw [not_or] at hn
  rw [not_or, not_or] at hcount
  have hphnum : elfMaxPhnum = 32 := rfl
  have hphsize : elfPhdrSize = 56 := rfl
  have hfile : elfMaxFile = 64 * 1024 * 1024 := rfl
  have hentry : hdr.entry < 2 ^ 64 := by
    rw [hhdr]
    exact Bytes.field_lt header 24 8
  unfold loadProgramU64
  refine Mirrors.arith (n := hdr.phnum * elfPhdrSize) (by push_cast; rfl) (by rw [hphsize]; omega) ?_
  refine Mirrors.arith (n := fileSize - hdr.phoff) (by omega) (by omega) ?_
  split
  next hcon =>
    rw [if_pos (Or.inr hcon)] at himage
    exact mirrors_refused himage
  next hroom =>
  rw [if_neg (not_or.mpr ⟨hplace, hroom⟩)] at himage
  refine Mirrors.request (fun _ n hn => ?_) (fun e he => ?_) (fun table htable => ?_)
  · rw [hsize] at hn
    rw [← Except.ok.inj hn]
    dsimp only
    omega
  · rw [he] at himage
    exact elfLoad_of_error himage
  rw [htable] at himage
  dsimp only at himage
  refine mirrors_checkSegments (by omega) hentry _ _ (fun e he => ?_) (fun info hinfo => ?_)
  · rw [he] at himage
    exact elfLoad_of_error himage
  rw [hinfo] at himage
  dsimp only at himage
  split
  next hcon =>
    rw [if_pos hcon] at himage
    exact mirrors_refused himage
  next hload =>
  rw [if_neg hload] at himage
  rw [elfLoad_of_ok himage]
  refine Mirrors.bind (mirrors_loadSegments s _ (admitted_of_checks hsize (by omega) hinfo))
    (fun _ => Mirrors.pure _)

/-- The loader is faithful and safe.  Whatever a file holds, no computation on addresses or sizes
leaves the range of its type, and no request for program headers or for data of a segment leaves
the file.  If the loader succeeds in a fresh address space, that space holds the program. -/
theorem user_elf_faithful {boot : Finset Nat} {w₀ w : World} (h : Booted boot w₀)
    (hr : World.Reachable w₀ w) {s : Nat} (hs : s ∈ w.spaces)
    (hfresh : ∀ v, UserPage v → translate w.memory.mem s v = none) {file : FileView}
    {content : List UInt8} (hfile : file.Shows content) :
    Eff.Post (elfLoadU64 file s) { memory := w.memory, requests := [], wrapped := false }
      (fun r st => st.wrapped = false ∧
        (∀ q ∈ st.requests, q.part ≠ .header → q.offset + q.len ≤ content.length) ∧
        ∀ entry imageEnd, r = .ok (entry, imageEnd) →
          ImageLoaded content st.memory (w.account boot w₀.memory.mem) s entry imageEnd) := by
  obtain ⟨free, hled⟩ := (h.reachable_inv hr).ledger
  cases hsize : file.size with
  | error e =>
      have hrun : elfLoadU64 file s = Eff.fail e := by
        unfold elfLoadU64
        rw [hsize]
        rfl
      rw [hrun]
      refine Eff.post_of_eq rfl ⟨rfl, fun q hq => absurd hq List.not_mem_nil, fun _ _ hr => ?_⟩
      cases hr
  | ok n =>
      have hstart : Clean file { memory := w.memory, requests := [], wrapped := false } :=
        ⟨rfl, nofun⟩
      refine Eff.post_mono (mirrors_elfLoad file s _ hstart) ?_
      rintro r st ⟨hout, hmem, hclean⟩
      refine ⟨hclean.unwrapped, fun q hq hpart => ?_, fun entry imageEnd hok => ?_⟩
      · rw [← hfile.size n hsize]
        exact hclean.inside q hq hpart n hsize
      · rw [hmem]
        exact elfLoad_image hled hs hfresh hfile entry imageEnd (hout ▸ hok)

/-! ## A small program -/

/-- A program of three bytes of code, with one segment of two pages. -/
def smallProgram : List UInt8 :=
  Bytes.pack [(4, elfMagic), (1, elfClass64), (1, elfData2Lsb), (10, 0), (2, etExec), (2, emX8664),
    (4, 1), (8, 0x400000), (8, 64), (8, 0), (4, 0), (2, 64), (2, 56), (2, 1), (2, 0), (2, 0), (2, 0),
    (4, ptLoad), (4, pfX), (8, 120), (8, 0x400000), (8, 0x400000), (8, 3), (8, 4097), (8, 4096)] ++
    [0x90, 0x90, 0xF4]

/-- A file that can be read in full. -/
def fileOfBytes (content : List UInt8) : FileView where
  size := .ok content.length
  read offset len := .ok ((content.drop offset).take len)

theorem showsBytes (content : List UInt8) : (fileOfBytes content).Shows content where
  size _ hn := (Except.ok.inj hn).symm
  read offset len bytes hread := by
    rw [← Except.ok.inj hread]
    exact List.take_prefix len _

/-- The small machine with one address space. -/
def smallSpace : World :=
  (smallWorld.call .create).2

/-- The run of the loader on the small program. -/
def smallLoad : Except Nstatus (Nat × Nat) × LoadState :=
  elfLoadU64 (fileOfBytes smallProgram) 0x1000 { memory := smallSpace.memory, requests := [], wrapped := false }

theorem user_elf_faithful_small :
    smallLoad.1 = .ok (0x400000, 0x402000) ∧ smallLoad.2.wrapped = false ∧
      (∀ q ∈ smallLoad.2.requests, q.part ≠ .header → q.offset + q.len ≤ smallProgram.length) ∧
      ImageLoaded smallProgram smallLoad.2.memory (smallSpace.account smallFrames smallMemory.mem)
        0x1000 0x400000 0x402000 := by
  have hreach : World.Reachable smallWorld smallSpace :=
    Relation.ReflTransGen.refl.tail ⟨.create, trivial, rfl⟩
  have hfresh : ∀ v, UserPage v → translate smallSpace.memory.mem 0x1000 v = none := by
    intro v hv
    obtain ⟨t, -, -, huser, -⟩ :=
      (booted_smallWorld.inv.simulated booted_smallWorld.tables (c := .create) trivial).2
    have hnone := congrFun (congrFun huser 0x1000) v
    have hspace : (0x1000 : Nat) ∈ smallSpace.spaces ∧ UserPage v := ⟨by decide, hv⟩
    have hbefore : ¬((0x1000 : Nat) ∈ smallWorld.spaces ∧ UserPage v) := fun hcon =>
      absurd hcon.1 (by decide)
    simp only [World.maps] at hnone
    rw [if_neg hbefore] at hnone
    exact (if_pos hspace).symm.trans hnone
  have hok : smallLoad.1 = .ok (0x400000, 0x402000) := by decide +kernel
  have hpost := user_elf_faithful booted_smallWorld hreach (by decide) hfresh
    (showsBytes smallProgram)
  unfold Eff.Post at hpost
  rw [← smallLoad] at hpost
  obtain ⟨hwrap, hreads, himage⟩ := hpost
  exact ⟨hok, hwrap, hreads, himage _ _ hok⟩

end Process
end Nyxis
