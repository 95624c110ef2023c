import Nyxis.Mm.Mapping
import Nyxis.Lib.Bytes
import Mathlib.Tactic.Ring

/-!
# Building the address space of a program

The loader of {lit}`kernel/process/elf.c`, the stack of
{lit}`kernel/process/spawn.c` and the heap of {lit}`kernel/process/umem.c`, as
far as they concern memory.  A file is seen through the two virtual file system
calls the loader makes.

Main results:

- Definition {lit}`Tidy`: whether a computation succeeds or stops half way, every
  frame it has taken belongs to the address space or is free again.
- Theorems {lit}`tidy_elfLoad`, {lit}`tidy_mapUserStack`, {lit}`tidy_growHeap` and
  {lit}`tidy_releasePages`: the loader, the stack and the heap are tidy.
-/

namespace Nyxis
namespace Process

open Mm

/-! ## Pages of an address space -/

/-- {lit}`align_up`: round up to a multiple of a power of two. -/
def alignUp (v a : Nat) : Nat :=
  (v + a - 1) % 2 ^ 64 / a * a

/-- Number of iterations of a loop over the pages of {lit}`[first, last)`. -/
def pageCount (first last : Nat) : Nat :=
  (last - first + pageSize - 1) / pageSize

/-- Copy bytes to the start of a frame. -/
def copyIn (phys : Nat) (bytes : List UInt8) (m : Memory) : Memory :=
  { m with mem := Function.update m.mem phys (fun i =>
      Bytes.leNat ((List.range 8).map (fun j =>
        (bytes[8 * i + j]?).getD (UInt8.ofNat (m.mem phys i / 256 ^ j))))) }

/-- Allocate a frame, fill it and map it; a frame that is not mapped in the end
is released. -/
def mapFreshPage (s v flags : Nat) (fill : Nat → MemM Unit) : MemM Nat := do
  let phys ← pfaAlloc
  match ← Eff.attempt (do fill phys; pagingMapPage s phys v flags) with
  | .error e =>
      Eff.ignore (pfaFree phys)
      Eff.fail e
  | .ok () => pure phys

/-! ## The loader -/

/-- What the loader sees of an open file: {lit}`vfs_fstat` and {lit}`vfs_read`. -/
structure FileView where
  size : Except Nstatus Nat
  read : (offset len : Nat) → Except Nstatus (List UInt8)

/-- {lit}`read_exact`: a short read is a damaged file. -/
def readExact (file : FileView) (offset len : Nat) : Except Nstatus (List UInt8) :=
  match file.read offset len with
  | .error e => .error e
  | .ok bytes => if bytes.length ≠ len then .error .NfileCorrupted else .ok bytes

/-- The fields of {lit}`elf64_header_t` that the loader uses. -/
structure ElfHeader where
  magic : Nat
  cls : Nat
  data : Nat
  type : Nat
  machine : Nat
  entry : Nat
  phoff : Nat
  phentsize : Nat
  phnum : Nat

/-- The fields of {lit}`elf64_phdr_t` that the loader uses. -/
structure ElfPhdr where
  type : Nat
  flags : Nat
  offset : Nat
  vaddr : Nat
  filesz : Nat
  memsz : Nat

def elfHeaderSize : Nat := 64
def elfPhdrSize : Nat := 56

def decodeHeader (bytes : List UInt8) : ElfHeader where
  magic := Bytes.field bytes 0 4
  cls := Bytes.field bytes 4 1
  data := Bytes.field bytes 5 1
  type := Bytes.field bytes 16 2
  machine := Bytes.field bytes 18 2
  entry := Bytes.field bytes 24 8
  phoff := Bytes.field bytes 32 8
  phentsize := Bytes.field bytes 54 2
  phnum := Bytes.field bytes 56 2

def decodePhdr (bytes : List UInt8) : ElfPhdr where
  type := Bytes.field bytes 0 4
  flags := Bytes.field bytes 4 4
  offset := Bytes.field bytes 8 8
  vaddr := Bytes.field bytes 16 8
  filesz := Bytes.field bytes 32 8
  memsz := Bytes.field bytes 40 8

def elfMagic : Nat := 0x464C457F
def elfClass64 : Nat := 2
def elfData2Lsb : Nat := 1
def etExec : Nat := 2
def emX8664 : Nat := 62
def ptLoad : Nat := 1
def pfX : Nat := 1
def pfW : Nat := 2
def elfMaxPhnum : Nat := 32
def elfMaxFile : Nat := 64 * 1024 * 1024
def userElfMinVaddr : Nat := 0x10000
def userElfMaxVaddr : Nat := 0x0000700000000000

/-- The page flags of a segment. -/
def segmentFlags (ph : ElfPhdr) : Nat :=
  (pageUser ||| (if hasFlag ph.flags pfW then pageRw else 0)) |||
    (if hasFlag ph.flags pfX then 0 else pageNx)

/-- The bytes of the file that belong to one page of a segment. -/
def copyLen (ph : ElfPhdr) (segOff : Nat) : Nat :=
  if segOff < ph.filesz then min (ph.filesz - segOff) pageSize else 0

/-- Fill one page of a segment from the file. -/
def fillPage (file : FileView) (ph : ElfPhdr) (page phys : Nat) : MemM Unit :=
  let segOff := page - ph.vaddr
  if copyLen ph segOff > 0 then
    match readExact file (ph.offset + segOff) (copyLen ph segOff) with
    | .error e => Eff.fail e
    | .ok bytes => Eff.modify (copyIn phys bytes)
  else
    pure ()

/-- The loop of {lit}`load_segment` over {lit}`n` pages. -/
def loadPages (file : FileView) (s : Nat) (ph : ElfPhdr) : (n page : Nat) → MemM Unit
  | 0, _ => pure ()
  | n + 1, page => do
      let _ ← mapFreshPage s page (segmentFlags ph) (fillPage file ph page)
      loadPages file s ph n (page + pageSize)

/-- {lit}`load_segment`: map one segment page by page. -/
def loadSegment (file : FileView) (s : Nat) (ph : ElfPhdr) : MemM Unit :=
  loadPages file s ph
    (pageCount ph.vaddr (alignUp (ph.vaddr + ph.memsz) pageSize)) ph.vaddr

/-- What the checks of the program headers have found so far. -/
structure ImageInfo where
  imageEnd : Nat
  entryOk : Bool
  anyLoad : Bool

/-- The checks {lit}`elf_load` makes on one loadable segment. -/
def checkSegment (fileSize entry : Nat) (info : ImageInfo) (ph : ElfPhdr) :
    Except Nstatus ImageInfo :=
  if ph.type ≠ ptLoad then .ok info
  else if ph.memsz = 0 ∨ ph.filesz > ph.memsz then .error .NinvalidFormat
  else if ph.offset > fileSize ∨ ph.filesz > fileSize - ph.offset then .error .NinvalidFormat
  else if ph.vaddr % pageSize ≠ 0 then .error .NinvalidFormat
  else if ph.vaddr < userElfMinVaddr ∨ ph.vaddr ≥ userElfMaxVaddr then .error .NinvalidFormat
  else if ph.memsz > userElfMaxVaddr - ph.vaddr then .error .NinvalidFormat
  else .ok {
    imageEnd := max info.imageEnd (alignUp (ph.vaddr + ph.memsz) pageSize)
    entryOk := info.entryOk || (hasFlag ph.flags pfX && entry ≥ ph.vaddr &&
      entry - ph.vaddr < ph.memsz)
    anyLoad := true }

/-- The second loop of {lit}`elf_load`: map every loadable segment. -/
def loadSegments (file : FileView) (s : Nat) : List ElfPhdr → MemM Unit
  | [] => pure ()
  | ph :: phs => do
      if ph.type = ptLoad then
        loadSegment file s ph
      loadSegments file s phs

/-- The part of {lit}`elf_load` that reads the headers and checks them.  It ends
in the program headers, the entry point and the end of the image. -/
def readImage (file : FileView) : Except Nstatus (List ElfPhdr × Nat × Nat) := do
  let fileSize ← file.size
  if fileSize = 0 ∨ fileSize > elfMaxFile then
    throw .NinvalidFormat
  let hdr := decodeHeader (← readExact file 0 elfHeaderSize)
  if hdr.magic ≠ elfMagic ∨ hdr.cls ≠ elfClass64 ∨ hdr.data ≠ elfData2Lsb ∨
      hdr.type ≠ etExec ∨ hdr.machine ≠ emX8664 then
    throw .Nunsupported
  if hdr.phentsize ≠ elfPhdrSize ∨ hdr.phnum = 0 ∨ hdr.phnum > elfMaxPhnum then
    throw .NinvalidFormat
  if hdr.phoff > fileSize ∨ hdr.phnum * elfPhdrSize > fileSize - hdr.phoff then
    throw .NinvalidFormat
  let table ← readExact file hdr.phoff (hdr.phnum * elfPhdrSize)
  let phdrs := (List.range hdr.phnum).map (fun i =>
    decodePhdr ((table.drop (i * elfPhdrSize)).take elfPhdrSize))
  let info ← phdrs.foldlM (checkSegment fileSize hdr.entry)
    { imageEnd := 0, entryOk := false, anyLoad := false }
  if !info.anyLoad || !info.entryOk then
    throw .NinvalidFormat
  pure (phdrs, hdr.entry, info.imageEnd)

/-- {lit}`elf_load`: check the file and map its segments.  On failure the address
space keeps what has been mapped so far. -/
def elfLoad (file : FileView) (s : Nat) : MemM (Nat × Nat) :=
  match readImage file with
  | .error e => Eff.fail e
  | .ok (phdrs, entry, imageEnd) => do
      loadSegments file s phdrs
      pure (entry, imageEnd)

/-! ## The stack -/

def userStackSize : Nat := 64 * 1024
def userStackTop : Nat := 0x00007FF800000000
def userStackBase : Nat := userStackTop - userStackSize
def userStackGuard : Nat := userStackBase - 4096
def userStackInit : Nat := 48

/-- Stack and heap pages are writable and not executable. -/
def dataFlags : Nat := pageUser ||| pageRw ||| pageNx

/-- The loop of {lit}`map_user_stack`; it ends in the frame of the topmost page. -/
def stackPages (s : Nat) : (n page topPhys : Nat) → MemM Nat
  | 0, _, topPhys => pure topPhys
  | n + 1, page, topPhys => do
      let phys ← mapFreshPage s page dataFlags (fun _ => pure ())
      stackPages s n (page + pageSize)
        (if page + pageSize = userStackTop then phys else topPhys)

/-- Clear the words of the initial stack block at the end of a frame. -/
def clearTop (phys : Nat) (m : Memory) : Memory :=
  { m with mem := Function.update m.mem phys (fun i =>
      if (pageSize - userStackInit) / 8 ≤ i ∧ i < pageSize / 8 then 0 else m.mem phys i) }

/-- {lit}`map_user_stack`. -/
def mapUserStack (s : Nat) : MemM Unit := do
  let topPhys ← stackPages s (pageCount userStackBase userStackTop) userStackBase 0
  Eff.modify (clearTop topPhys)

/-! ## The heap -/

/-- {lit}`rollback_pages` and the loop of a shrinking {lit}`umem_brk`: unmap and
release pages, whatever each call returns. -/
def releasePages (s : Nat) : (n page : Nat) → MemM Unit
  | 0, _ => pure ()
  | n + 1, page => do
      Eff.ignore (pagingUnmapFreePage s page)
      releasePages s n (page + pageSize)

/-- The loop of a growing {lit}`umem_brk`: map fresh pages, and give all of them
back when one cannot be had. -/
def growHeap (s first : Nat) : (n page : Nat) → MemM Unit
  | 0, _ => pure ()
  | n + 1, page => do
      match ← Eff.attempt (mapFreshPage s page dataFlags (fun _ => pure ())) with
      | .error e =>
          releasePages s (pageCount first page) first
          Eff.fail e
      | .ok _ => growHeap s first n (page + pageSize)

/-! ## What these leave behind -/

/-- The ledger still holds with the same account, and no leaf outside the given
address space has changed. -/
structure Local (m m' : Memory) (a : Account) (s : Nat) : Prop where
  ledger : ∃ free, Ledger m' a free
  others : SameLeaves m m' (a.spaces.erase s)
  steady : Steady m m' a.spaces

variable {m : Memory} {a : Account} {free : List Nat} {s : Nat}

theorem Local.refl (h : Ledger m a free) : Local m m a s :=
  ⟨⟨free, h⟩, fun _ _ _ _ _ => rfl, Steady.refl m a.spaces⟩

theorem Local.trans {m' m'' : Memory} (h : Local m m' a s) (h' : Local m' m'' a s) :
    Local m m'' a s :=
  ⟨h'.ledger, h.others.trans h'.others, h.steady.trans h'.steady⟩

/-- A computation that may take frames for one address space but leaves none
behind. -/
def Tidy (a : Account) (s : Nat) {α : Type} (c : MemM α) : Prop :=
  ∀ m free, Ledger m a free → Eff.Post c m (fun _ m' => Local m m' a s)

theorem Tidy.pure {α : Type} (x : α) : Tidy a s (pure x : MemM α) :=
  fun _ _ h => Eff.post_of_eq rfl (Local.refl h)

theorem Tidy.fail {α : Type} (e : Nstatus) : Tidy a s (Eff.fail e : MemM α) :=
  fun _ _ h => Eff.post_of_eq rfl (Local.refl h)

theorem Tidy.bind {α β : Type} {c : MemM α} {f : α → MemM β} (hc : Tidy a s c)
    (hf : ∀ x, Tidy a s (f x)) : Tidy a s (c >>= f) := by
  intro m free h
  refine Eff.post_bind (hc m free h) (fun _ _ hloc => hloc) (fun x m' hloc => ?_)
  obtain ⟨free', hled⟩ := hloc.ledger
  exact Eff.post_mono (hf x m' free' hled) (fun _ _ hloc' => hloc.trans hloc')

theorem Tidy.attempt_bind {α β : Type} {c : MemM α} {f : Except Nstatus α → MemM β}
    (hc : Tidy a s c) (hf : ∀ r, Tidy a s (f r)) : Tidy a s (Eff.attempt c >>= f) := by
  intro m free h
  refine Eff.post_attempt_bind (hc m free h) (fun r m' hloc => ?_)
  obtain ⟨free', hled⟩ := hloc.ledger
  exact Eff.post_mono (hf r m' free' hled) (fun _ _ hloc' => hloc.trans hloc')

theorem Tidy.ignore_bind {α β : Type} {c : MemM α} {f : Unit → MemM β}
    (hc : Tidy a s c) (hf : Tidy a s (f ())) : Tidy a s (Eff.ignore c >>= f) := by
  intro m free h
  refine Eff.post_ignore_bind (hc m free h) (fun _ m' hloc => ?_)
  obtain ⟨free', hled⟩ := hloc.ledger
  exact Eff.post_mono (hf m' free' hled) (fun _ _ hloc' => hloc.trans hloc')

/-- A filler writes only the frame it is given. -/
def Fills (fill : Nat → MemM Unit) : Prop :=
  ∀ phys m, ∃ r words, fill phys m =
    (r, { m with mem := Function.update m.mem phys words })

theorem fills_pure : Fills (fun _ => pure ()) := by
  intro phys m
  refine ⟨.ok (), m.mem phys, ?_⟩
  simp

theorem fills_fillPage (file : FileView) (ph : ElfPhdr) (page : Nat) :
    Fills (fillPage file ph page) := by
  intro phys m
  unfold fillPage
  cases readExact file (ph.offset + (page - ph.vaddr)) (copyLen ph (page - ph.vaddr)) with
  | error e =>
      by_cases hlen : copyLen ph (page - ph.vaddr) > 0
      · refine ⟨.error e, m.mem phys, ?_⟩
        simp [hlen]
      · obtain ⟨r, words, hrun⟩ := fills_pure phys m
        exact ⟨r, words, by simpa [hlen] using hrun⟩
  | ok bytes =>
      by_cases hlen : copyLen ph (page - ph.vaddr) > 0
      · refine ⟨.ok (), (copyIn phys bytes m).mem phys, ?_⟩
        simp [hlen, copyIn]
      · obtain ⟨r, words, hrun⟩ := fills_pure phys m
        exact ⟨r, words, by simpa [hlen] using hrun⟩

/-- A frame that some leaf maps. -/
def MappedFrame (m : Memory) (a : Account) (f : Nat) : Prop :=
  ∃ s ∈ a.spaces, ∃ p, UserPos p ∧ p.length = 4 ∧ tableAt m.mem s p = some f

/-- Filling and mapping a held frame binds it, or leaves it held. -/
theorem fillAndMap_post (h : Ledger m a free) (hs : s ∈ a.spaces) {f : Nat} (hf : f ∈ a.held)
    (v flags : Nat) {fill : Nat → MemM Unit} (hfill : Fills fill) :
    Eff.Post (do fill f; pagingMapPage s f v flags) m (fun r m' =>
      (r = .ok () ∧ (∃ free', Ledger m' { a with held := a.held.erase f } free') ∧
        SameLeaves m m' (a.spaces.erase s) ∧ Steady m m' a.spaces ∧ MappedFrame m' a f) ∨
      (∃ e, r = .error e ∧ Grown m m' a)) := by
  obtain ⟨r, words, hrun⟩ := hfill f m
  obtain ⟨hled, hsame, hsteady⟩ := h.scribble (Or.inl hf) words
  have hgrown : Grown m { m with mem := Function.update m.mem f words } a := by
    refine ⟨⟨free, hled⟩, hsame.leaves, hsteady, fun t ht p hp u hu => ?_⟩
    rw [hsame.tableAt ht hp]
    exact hu
  cases r with
  | error e => exact Eff.post_bind_error hrun (Or.inr ⟨e, rfl, hgrown⟩)
  | ok u =>
      refine Eff.post_bind_ok hrun (Eff.post_mono (hled.pagingMapPage_post hs hf v flags) ?_)
      rintro r m' (⟨rfl, hm⟩ | ⟨e, rfl, hg⟩)
      · refine Or.inl ⟨rfl, hm.ledger, ?_, hsteady.trans hm.steady, ?_⟩
        · intro t ht p hp hlen
          obtain ⟨hne, ht⟩ := Finset.mem_erase.mp ht
          rw [hm.leaf t ht p hp hlen, if_neg (fun hcon => hne hcon.1), hsame t ht p hp]
        · have hpos : UserPos (leafPos v) := userPos_leafPos hm.args.user
          refine ⟨s, hs, leafPos v, hpos, rfl, ?_⟩
          rw [tableAt_of_ne_nil s (by simp [leafPos]), hm.leaf s hs _ hpos rfl,
            if_pos ⟨rfl, rfl⟩, Option.map_some,
            tableOf_leafEntry (h.frame f (h.held_boot f hf))]
      · exact Or.inr ⟨e, rfl, hgrown.trans hg⟩

/-- Mapping a fresh page leaves no frame behind and ends in a mapped frame. -/
theorem mapFreshPage_post (h : Ledger m a free) (hs : s ∈ a.spaces) (v flags : Nat)
    {fill : Nat → MemM Unit} (hfill : Fills fill) :
    Eff.Post (mapFreshPage s v flags fill) m (fun r m' =>
      Local m m' a s ∧ ∀ f, r = .ok f → MappedFrame m' a f) := by
  unfold mapFreshPage
  cases free with
  | nil =>
      refine Eff.post_bind_error (pfaAlloc_nil h.allocator) ⟨Local.refl h, ?_⟩
      intro f hf
      cases hf
  | cons f fs =>
      obtain ⟨hled, hsame, hsteady⟩ := h.alloc
      have hf : f ∈ insert f a.held := Finset.mem_insert_self f a.held
      have hnot : f ∉ a.held := fun hcon => h.held_free f hcon (List.mem_cons_self ..)
      have hacc : (insert f a.held).erase f = a.held := Finset.erase_insert hnot
      have hframe : Frame f := h.frame f (h.free_boot f (List.mem_cons_self ..))
      have hbefore : SameLeaves m (popFree m) (a.spaces.erase s) :=
        fun t ht p hp _ => hsame t (Finset.mem_of_mem_erase ht) p hp
      refine Eff.post_bind_ok (pfaAlloc_cons h.allocator) ?_
      refine Eff.post_attempt_bind (fillAndMap_post hled hs hf v flags hfill) ?_
      rintro r m₂ (⟨rfl, ⟨fs₂, hled₂⟩, hothers, hsteady₂, hdata⟩ | ⟨e, rfl, hg⟩)
      · simp only [hacc] at hled₂
        refine Eff.post_of_eq rfl
          ⟨⟨⟨fs₂, hled₂⟩, hbefore.trans hothers, hsteady.trans hsteady₂⟩, ?_⟩
        rintro g ⟨⟩
        exact hdata
      · -- the frame is still held and goes back
        obtain ⟨fs₂, hled₂⟩ := hg.ledger
        obtain ⟨hled₃, hsame₃, hsteady₃⟩ := hled₂.release hf
        simp only [hacc] at hled₃
        have hundo : (do Eff.ignore (pfaFree f); Eff.fail e : MemM Nat) m₂ =
            (.error e, pushFree m₂ f) := by
          rw [Eff.ignore_bind_run, pfaFree_push hframe.ne_zero hframe.aligned]
          rfl
        refine Eff.post_of_eq hundo ⟨⟨⟨_, hled₃⟩, ?_,
          (hsteady.trans hg.steady).trans hsteady₃⟩, ?_⟩
        · intro t ht p hp hlen
          have ht' := Finset.mem_of_mem_erase ht
          rw [hsame₃ t ht' p hp, hg.leaves t ht' p hp hlen, hsame t ht' p hp]
        · intro g hg
          cases hg

theorem tidy_mapFreshPage (hs : s ∈ a.spaces) (v flags : Nat) {fill : Nat → MemM Unit}
    (hfill : Fills fill) : Tidy a s (mapFreshPage s v flags fill) :=
  fun _ _ h => Eff.post_mono (mapFreshPage_post h hs v flags hfill) (fun _ _ hp => hp.1)

theorem tidy_unmapFree (hs : s ∈ a.spaces) (v : Nat) :
    Tidy a s (pagingUnmapFreePage s v) := by
  intro m free h
  refine Eff.post_mono (h.pagingUnmapFreePage_post hs v) ?_
  rintro r m' (⟨e, rfl, hun, hled⟩ | ⟨e, rfl, rfl, _⟩)
  · refine ⟨⟨_, hled⟩, fun t ht p hp hlen => ?_, hun.steady⟩
    obtain ⟨hne, ht⟩ := Finset.mem_erase.mp ht
    rw [hun.leaf t ht p hp hlen, if_neg (fun hcon => hne hcon.1)]
  · exact Local.refl h

theorem tidy_releasePages (hs : s ∈ a.spaces) (n page : Nat) :
    Tidy a s (releasePages s n page) := by
  induction n generalizing page with
  | zero => exact Tidy.pure ()
  | succ n ih => exact Tidy.ignore_bind (tidy_unmapFree hs page) (ih (page + pageSize))

theorem tidy_growHeap (hs : s ∈ a.spaces) (first n page : Nat) :
    Tidy a s (growHeap s first n page) := by
  induction n generalizing page with
  | zero => exact Tidy.pure ()
  | succ n ih =>
      refine Tidy.attempt_bind (tidy_mapFreshPage hs page dataFlags fills_pure) (fun r => ?_)
      cases r with
      | error e =>
          exact Tidy.bind (tidy_releasePages hs _ first) (fun _ => Tidy.fail e)
      | ok _ => exact ih (page + pageSize)

theorem tidy_loadPages (hs : s ∈ a.spaces) (file : FileView) (ph : ElfPhdr) (n page : Nat) :
    Tidy a s (loadPages file s ph n page) := by
  induction n generalizing page with
  | zero => exact Tidy.pure ()
  | succ n ih =>
      exact Tidy.bind
        (tidy_mapFreshPage hs page (segmentFlags ph) (fills_fillPage file ph page))
        (fun _ => ih (page + pageSize))

theorem tidy_loadSegments (hs : s ∈ a.spaces) (file : FileView) (phs : List ElfPhdr) :
    Tidy a s (loadSegments file s phs) := by
  induction phs with
  | nil => exact Tidy.pure ()
  | cons ph phs ih =>
      unfold loadSegments
      split
      · exact Tidy.bind (tidy_loadPages hs file ph _ _) (fun _ => ih)
      · exact ih

/-- The loader leaves no frame behind, whether it succeeds or not. -/
theorem tidy_elfLoad (hs : s ∈ a.spaces) (file : FileView) : Tidy a s (elfLoad file s) := by
  unfold elfLoad
  split
  · exact Tidy.fail _
  · exact Tidy.bind (tidy_loadSegments hs file _) (fun _ => Tidy.pure _)

/-- The loop of the stack ends in the frame of its last page. -/
theorem stackPages_post (h : Ledger m a free) (hs : s ∈ a.spaces) (n page topPhys : Nat)
    (hend : page + (n + 1) * pageSize = userStackTop) :
    Eff.Post (stackPages s (n + 1) page topPhys) m (fun r m' =>
      Local m m' a s ∧ ∀ f, r = .ok f → MappedFrame m' a f) := by
  induction n generalizing m free page topPhys with
  | zero =>
      refine Eff.post_bind (mapFreshPage_post h hs page dataFlags fills_pure) ?_ ?_
      · rintro e m' ⟨hloc, _⟩
        refine ⟨hloc, fun f hf => ?_⟩
        cases hf
      · rintro phys m' ⟨hloc, hmapped⟩
        have hlast : page + pageSize = userStackTop := by
          rw [← hend]
          simp
        rw [if_pos hlast]
        refine Eff.post_of_eq rfl ⟨hloc, fun f hf => ?_⟩
        cases hf
        exact hmapped phys rfl
  | succ n ih =>
      refine Eff.post_bind (mapFreshPage_post h hs page dataFlags fills_pure) ?_ ?_
      · rintro e m' ⟨hloc, _⟩
        refine ⟨hloc, fun f hf => ?_⟩
        cases hf
      · rintro phys m' ⟨hloc, _⟩
        obtain ⟨free', hled⟩ := hloc.ledger
        refine Eff.post_mono (ih hled (page + pageSize) _ ?_) ?_
        · rw [← hend]
          ring
        · rintro r m'' ⟨hloc', hmapped⟩
          exact ⟨hloc.trans hloc', hmapped⟩

/-- Mapping the stack leaves no frame behind, whether it succeeds or not. -/
theorem tidy_mapUserStack (hs : s ∈ a.spaces) : Tidy a s (mapUserStack s) := by
  intro m free h
  refine Eff.post_bind (stackPages_post h hs 15 userStackBase 0 (by decide)) ?_ ?_
  · rintro e m' ⟨hloc, _⟩
    exact hloc
  · rintro top m' ⟨hloc, hmapped⟩
    obtain ⟨free', hled⟩ := hloc.ledger
    obtain ⟨hled', hsame, hsteady⟩ := hled.scribble (Or.inr (hmapped top rfl)) _
    refine Eff.post_of_eq rfl (hloc.trans ⟨⟨free', hled'⟩, ?_, hsteady⟩)
    exact fun t ht p hp _ => hsame t (Finset.mem_of_mem_erase ht) p hp

end Process
end Nyxis
