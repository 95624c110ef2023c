import Nyxis.Process.Pages

/-!
# What a loaded image holds

A program that has been loaded into a fresh address space has every page of its segments mapped to
a frame of its own, with the bytes of the file and zeros behind them, and nothing else.  Two
segments that share a page are refused by the page tables: the second mapping of the page fails.

Main results:

- Theorem {lit}`mapFreshPage_words`: the words of one fresh page.
- Theorem {lit}`loadSegments_loaded`: the segments, one after the other.
- Theorem {lit}`readImage_headers`: what the headers of an accepted file say.
- Theorem {lit}`elfLoad_image`: the image of a program.
-/

namespace Nyxis
namespace Process

open Mm

variable {m : Memory} {a : Account} {free : List Nat} {s : Nat}

/-! ## The words of a page -/

theorem fillAndMap_words (h : Ledger m a free) (hs : s ∈ a.spaces) {f : Nat} (hf : f ∈ a.held)
    (v flags : Nat) {fill : Nat → MemM Unit} (hfill : Fills fill) :
    Eff.Post (do fill f; pagingMapPage s f v flags) m (fun r m' => r = .ok () →
      (fill f m).1 = .ok () ∧ m'.mem f = (fill f m).2.mem f) := by
  obtain ⟨r, words, hrun⟩ := hfill f m
  obtain ⟨hled, -, -⟩ := h.scribble (Or.inl hf) words
  cases r with
  | error e => exact Eff.post_bind_error hrun nofun
  | ok u =>
      refine Eff.post_bind_ok hrun (Eff.post_mono (hled.pagingMapPage_data hs f v flags) ?_)
      intro r m' hdata _
      rw [hrun]
      exact ⟨rfl, hdata f (Or.inl hf)⟩

/-- A fresh page holds what its filler leaves in a frame of zeros. -/
theorem mapFreshPage_words (h : Ledger m a free) (hs : s ∈ a.spaces) (v flags : Nat)
    {fill : Nat → MemM Unit} (hfill : Fills fill) :
    Eff.Post (mapFreshPage s v flags fill) m (fun r m' => ∀ f, r = .ok f →
      ∃ m₁ : Memory, (∀ i, m₁.mem f i = 0) ∧ (fill f m₁).1 = .ok () ∧
        m'.mem f = (fill f m₁).2.mem f) := by
  unfold mapFreshPage
  cases free with
  | nil => exact Eff.post_bind_error (pfaAlloc_nil h.allocator) nofun
  | cons f fs =>
      obtain ⟨hled, -, -⟩ := h.alloc
      have hhead : m.freeHead = f := h.allocator.list.1
      have hzero : ∀ i, (popFree m).mem f i = 0 := by
        intro i
        rw [← hhead]
        exact popFree_mem_head m i
      refine Eff.post_bind_ok (pfaAlloc_cons h.allocator) ?_
      refine Eff.post_attempt_bind
        (fillAndMap_words hled hs (Finset.mem_insert_self f a.held) v flags hfill) ?_
      intro r m₂ hwords
      cases r with
      | error e => exact Eff.post_ignore_bind (R := fun _ _ => True) trivial (fun _ _ _ => nofun)
      | ok u =>
          obtain ⟨hok, hmem⟩ := hwords rfl
          refine Eff.post_of_eq rfl ?_
          intro g hg
          cases hg
          exact ⟨popFree m, hzero, hok, hmem⟩

/-- The bytes of the file that belong to a page of a segment, behind a check that they can be
read. -/
def pageBytes (file : FileView) (ph : ElfPhdr) (page : Nat) : Except Nstatus (List UInt8) :=
  if copyLen ph (page - ph.vaddr) > 0 then
    readExact file (ph.offset + (page - ph.vaddr)) (copyLen ph (page - ph.vaddr))
  else
    .ok []

/-- The words of a frame that starts with the given bytes and goes on with zeros. -/
def wordsOf (bytes : List UInt8) (i : Nat) : Nat :=
  Bytes.leNat ((List.range 8).map (fun j => (bytes[8 * i + j]?).getD 0))

theorem wordsOf_nil (i : Nat) : wordsOf [] i = 0 := by
  simp [wordsOf, List.range_succ, Bytes.leNat]

theorem fillPage_words {file : FileView} {ph : ElfPhdr} {page f : Nat} {m₁ : Memory}
    (hzero : ∀ i, m₁.mem f i = 0) (hok : (fillPage file ph page f m₁).1 = .ok ()) :
    ∃ bytes, pageBytes file ph page = .ok bytes ∧
      (fillPage file ph page f m₁).2.mem f = wordsOf bytes := by
  unfold pageBytes
  by_cases hlen : copyLen ph (page - ph.vaddr) > 0
  · rw [fillPage, if_pos hlen] at hok ⊢
    rw [if_pos hlen]
    cases hread : readExact file (ph.offset + (page - ph.vaddr)) (copyLen ph (page - ph.vaddr)) with
    | error e =>
        rw [hread] at hok
        cases hok
    | ok bytes =>
        refine ⟨bytes, rfl, ?_⟩
        funext i
        change Function.update m₁.mem f _ f i = _
        rw [Function.update_self, wordsOf]
        congr 1
        refine List.map_congr_left (fun j _ => ?_)
        rw [hzero, Nat.zero_div]
        rfl
  · have hfill : fillPage file ph page f = pure () := if_neg hlen
    rw [hfill, if_neg hlen]
    refine ⟨[], rfl, ?_⟩
    funext i
    rw [wordsOf_nil]
    exact hzero i

/-- A page of a segment is in place. -/
structure PageLoaded (file : FileView) (m : Memory) (s : Nat) (ph : ElfPhdr) (v : Nat) (nx : Bool) :
    Prop where
  leaf : ∃ f bytes, Frame f ∧ leafAt m s v = some (leafEntry f (effectiveFlags nx (segmentFlags ph))) ∧
    pageBytes file ph v = .ok bytes ∧ m.mem f = wordsOf bytes

/-- A page that is spared stays in place. -/
theorem PageLoaded.spared {file : FileView} {m' : Memory} {ph : ElfPhdr} {v : Nat} {nx : Bool}
    {P : Nat → Prop} (h : PageLoaded file m s ph v nx) (hsp : Spared m m' a s P) (hv : UserPage v)
    (hP : ¬P v) : PageLoaded file m' s ph v nx := by
  obtain ⟨f, bytes, hframe, hleaf, hbytes, hwords⟩ := h.leaf
  refine ⟨f, bytes, hframe, (hsp.leaves v hv hP).trans hleaf, hbytes, ?_⟩
  have hdata := hsp.data v hv hP _ hleaf
  rw [tableOf_leafEntry hframe] at hdata
  rw [hdata, hwords]

/-- A fresh page of a segment. -/
theorem mapFreshPage_loaded (h : Ledger m a free) (hs : s ∈ a.spaces) (file : FileView)
    (ph : ElfPhdr) (v : Nat) :
    Eff.Post (mapFreshPage s v (segmentFlags ph) (fillPage file ph v)) m (fun r m' => ∀ f, r = .ok f →
      Spared m m' a s (fun w => w = v) ∧ UserPage v ∧ leafAt m s v = none ∧
        PageLoaded file m' s ph v m.nxSupported) := by
  have hfill := fills_fillPage file ph v
  refine Eff.post_mono (Eff.post_and (mapFreshPage_leaf h hs v (segmentFlags ph) hfill)
    (mapFreshPage_words h hs v (segmentFlags ph) hfill)) ?_
  rintro r m' ⟨⟨f, rfl, hfresh, -⟩ | ⟨e, rfl, -⟩, hwords⟩
  · intro g hg
    cases hg
    obtain ⟨m₁, hzero, hok, hmem⟩ := hwords f rfl
    obtain ⟨bytes, hbytes, hfilled⟩ := fillPage_words hzero hok
    refine ⟨hfresh.spared hs, hfresh.userPage, hfresh.unbound, f, bytes, hfresh.frame,
      hfresh.leafAt_eq hs, hbytes, ?_⟩
    rw [hmem, hfilled]
  · intro g hg
    cases hg

/-! ## Segments -/

/-- The end of the last page of a segment. -/
def segmentEnd (ph : ElfPhdr) : Nat :=
  alignUp (ph.vaddr + ph.memsz) pageSize

/-- A page belongs to a loadable segment. -/
def InSegment (ph : ElfPhdr) (v : Nat) : Prop :=
  ph.type = ptLoad ∧ Within ph.vaddr (segmentEnd ph) v

/-- The given pages of the segments are in place, and no other page has changed. -/
structure Loaded (file : FileView) (m₀ m : Memory) (a : Account) (s : Nat)
    (Q : ElfPhdr → Nat → Prop) : Prop where
  ledger : ∃ free, Ledger m a free
  nx : m.nxSupported = m₀.nxSupported
  pages : ∀ ph v, UserPage v → Q ph v → PageLoaded file m s ph v m₀.nxSupported
  rest : ∀ v, UserPage v → (∀ ph, ¬Q ph v) → leafAt m s v = leafAt m₀ s v

variable {file : FileView} {m₀ : Memory} {Q R : ElfPhdr → Nat → Prop} {ph : ElfPhdr}

theorem Loaded.start (h : Ledger m a free) : Loaded file m m a s (fun _ _ => False) where
  ledger := ⟨free, h⟩
  nx := rfl
  pages := fun _ _ _ h => h.elim
  rest := fun _ _ _ => rfl

theorem Loaded.congr (h : Loaded file m₀ m a s Q) (hQ : ∀ ph v, UserPage v → (R ph v ↔ Q ph v)) :
    Loaded file m₀ m a s R where
  ledger := h.ledger
  nx := h.nx
  pages ph v hv hR := h.pages ph v hv ((hQ ph v hv).mp hR)
  rest v hv hR := h.rest v hv (fun ph hph => hR ph ((hQ ph v hv).mpr hph))

/-- One more page of a segment is in place; it has been in no segment before. -/
theorem Loaded.next {m' : Memory} {v : Nat} (h : Loaded file m₀ m a s Q)
    (hsp : Spared m m' a s (fun w => w = v)) (hnone : leafAt m s v = none) (hv : UserPage v)
    (hpage : PageLoaded file m' s ph v m.nxSupported) :
    Loaded file m₀ m' a s (fun q w => Q q w ∨ (q = ph ∧ w = v)) ∧ ∀ q, ¬Q q v := by
  have hnew : ∀ q, ¬Q q v := by
    intro q hq
    obtain ⟨f, bytes, -, hleaf, -⟩ := (h.pages q v hv hq).leaf
    rw [hnone] at hleaf
    cases hleaf
  refine ⟨⟨hsp.ledger, hsp.nx.trans h.nx, ?_, ?_⟩, hnew⟩
  · rintro q w hw (hq | ⟨rfl, rfl⟩)
    · have hne : w ≠ v := by
        rintro rfl
        exact hnew q hq
      exact (h.pages q w hw hq).spared hsp hw hne
    · rw [← h.nx]
      exact hpage
  · intro w hw hno
    have hne : w ≠ v := fun heq => hno ph (Or.inr ⟨rfl, heq⟩)
    rw [hsp.leaves w hw hne]
    exact h.rest w hw (fun q hq => hno q (Or.inl hq))

/-- A range of pages is its first page and the rest of it. -/
theorem within_cons {page n v : Nat} (hv : UserPage v) (hpage : page % pageSize = 0) :
    Within page (page + (n + 1) * pageSize) v ↔
      v = page ∨ Within (page + pageSize) (page + pageSize + n * pageSize) v := by
  constructor
  · rintro ⟨hlo, hhi⟩
    by_cases hnext : page + pageSize ≤ v
    · refine Or.inr ⟨hnext, ?_⟩
      have hmul : (n + 1) * pageSize = pageSize + n * pageSize := by ring
      omega
    · exact Or.inl (eq_of_within_page hv hpage ⟨hlo, by omega⟩)
  · exact within_succ

theorem loadPages_loaded (hs : s ∈ a.spaces) (ph : ElfPhdr) (n : Nat) {page : Nat}
    (h : Loaded file m₀ m a s Q) (halign : page % pageSize = 0) :
    Eff.Post (loadPages file s ph n page) m (fun r m' => r = .ok () →
      Loaded file m₀ m' a s (fun q v => Q q v ∨ (q = ph ∧ Within page (page + n * pageSize) v)) ∧
      ∀ v, UserPage v → Within page (page + n * pageSize) v → ∀ q, ¬Q q v) := by
  have hnot : ∀ v, ¬Within page (page + 0 * pageSize) v := by
    intro v hv
    have := hv.1
    have := hv.2
    omega
  induction n generalizing m page Q with
  | zero =>
      intro _
      refine ⟨h.congr (fun q v _ => ?_), fun v _ hv => absurd hv (hnot v)⟩
      exact or_iff_left (fun hcon => hnot v hcon.2)
  | succ n ih =>
      obtain ⟨free, hled⟩ := h.ledger
      refine Eff.post_bind (mapFreshPage_loaded hled hs file ph page) (fun _ _ _ => nofun) ?_
      intro f m₁ hfresh
      obtain ⟨hsp, hpage, hnone, hloaded⟩ := hfresh f rfl
      obtain ⟨hnext, hnew⟩ := h.next hsp hnone hpage hloaded
      have halign' : (page + pageSize) % pageSize = 0 := by
        rw [Nat.add_mod_right]
        exact halign
      have hnot' : ∀ v, ¬Within (page + pageSize) (page + pageSize + 0 * pageSize) v := by
        intro v hv
        have := hv.1
        have := hv.2
        omega
      refine Eff.post_mono (ih hnext halign' hnot') ?_
      intro r m₂ hrest hok
      obtain ⟨hall, hapart⟩ := hrest hok
      refine ⟨hall.congr (fun q v hv => ?_), fun v hv hin q hq => ?_⟩
      · rw [within_cons hv halign, or_assoc, ← and_or_left]
      · rcases (within_cons hv halign).mp hin with heq | hin
        · subst heq
          exact hnew q hq
        · exact hapart v hv hin q (Or.inl hq)

/-- Loading a list of segments puts all their pages in place, and no page is in two of them. -/
theorem loadSegments_loaded (hs : s ∈ a.spaces) {imageEnd : Nat} (phs : List ElfPhdr)
    (hseg : ∀ ph ∈ phs, ph.type = ptLoad → SegmentOk imageEnd ph) (h : Loaded file m₀ m a s Q) :
    Eff.Post (loadSegments file s phs) m (fun r m' => r = .ok () →
      Loaded file m₀ m' a s (fun q v => Q q v ∨ (q ∈ phs ∧ InSegment q v)) ∧
      phs.Pairwise (fun p q => ∀ v, UserPage v → InSegment p v → ¬InSegment q v) ∧
      ∀ p ∈ phs, ∀ v, UserPage v → InSegment p v → ∀ q, ¬Q q v) := by
  induction phs generalizing m Q with
  | nil =>
      intro _
      refine ⟨h.congr (fun q v _ => ?_), List.Pairwise.nil, fun p hp => absurd hp List.not_mem_nil⟩
      exact or_iff_left (fun hcon => List.not_mem_nil hcon.1)
  | cons ph phs ih =>
      have hrest := fun q hq => hseg q (List.mem_cons_of_mem ph hq)
      unfold loadSegments
      split
      next htype =>
        have hok := hseg ph List.mem_cons_self htype
        have hmax : userElfMaxVaddr = 0x0000700000000000 := rfl
        have hupper := hok.upper
        obtain ⟨hle, -, hmod⟩ := alignUp_spec (v := ph.vaddr + ph.memsz) (by omega)
        have hcount := pageCount_mul hok.aligned hmod (by omega)
        have hfirst := loadPages_loaded hs ph
          (pageCount ph.vaddr (alignUp (ph.vaddr + ph.memsz) pageSize)) h hok.aligned
        rw [hcount] at hfirst
        refine Eff.post_bind hfirst (fun e m₁ _ hcon => ?_) ?_
        · cases hcon
        intro _ m₁ hdone
        obtain ⟨hloaded, hapart⟩ := hdone rfl
        refine Eff.post_mono (ih hrest hloaded) ?_
        intro r m₂ hlater hr
        obtain ⟨hall, hpairs, hothers⟩ := hlater hr
        refine ⟨hall.congr (fun q v _ => ?_), ?_, ?_⟩
        · rw [List.mem_cons, or_and_right, or_assoc]
          refine or_congr Iff.rfl (or_congr ?_ Iff.rfl)
          constructor
          · rintro ⟨rfl, hin⟩
            exact ⟨rfl, hin.2⟩
          · rintro ⟨rfl, hin⟩
            exact ⟨rfl, htype, hin⟩
        · refine List.pairwise_cons.mpr ⟨?_, hpairs⟩
          intro q hq v hv hp hq'
          exact hothers q hq v hv hq' ph (Or.inr ⟨rfl, hp.2⟩)
        · intro p hp v hv hin q hq
          rcases List.mem_cons.mp hp with rfl | hp
          · exact hapart v hv hin.2 q hq
          · exact hothers p hp v hv hin q (Or.inl hq)
      next htype =>
        refine Eff.post_mono (ih hrest h) ?_
        intro r m₂ hlater hr
        obtain ⟨hall, hpairs, hothers⟩ := hlater hr
        refine ⟨hall.congr (fun q v _ => ?_), ?_, ?_⟩
        · refine or_congr Iff.rfl ?_
          rw [List.mem_cons]
          constructor
          · rintro ⟨rfl | hq, hin⟩
            · exact absurd hin.1 htype
            · exact ⟨hq, hin⟩
          · exact fun hq => ⟨Or.inr hq.1, hq.2⟩
        · exact List.pairwise_cons.mpr ⟨fun q _ v _ hp => absurd hp.1 htype, hpairs⟩
        · intro p hp v hv hin q hq
          rcases List.mem_cons.mp hp with rfl | hp
          · exact absurd hin.1 htype
          · exact hothers p hp v hv hin q hq

/-! ## Headers -/

/-- A file shows a byte string: its size is that of the string, and a read returns a piece of it.
A read may fail or be short. -/
structure FileView.Shows (file : FileView) (content : List UInt8) : Prop where
  size : ∀ n, file.size = .ok n → n = content.length
  read : ∀ offset len bytes, file.read offset len = .ok bytes → bytes <+: content.drop offset

variable {content : List UInt8}

/-- A read that is not short returns all the bytes that have been asked for. -/
theorem FileView.Shows.readExact (h : file.Shows content) {offset len : Nat} {bytes : List UInt8}
    (hread : Process.readExact file offset len = .ok bytes) :
    bytes = (content.drop offset).take len ∧ bytes.length = len := by
  unfold Process.readExact at hread
  cases hfile : file.read offset len with
  | error e =>
      rw [hfile] at hread
      cases hread
  | ok got =>
      rw [hfile] at hread
      dsimp only at hread
      split at hread
      next => cases hread
      next hlen =>
        cases hread
        rw [not_not] at hlen
        refine ⟨?_, hlen⟩
        have hprefix := List.prefix_iff_eq_take.mp (h.read offset len bytes hfile)
        rw [hlen] at hprefix
        exact hprefix

/-- The entries of a program header table. -/
def phdrTable (table : List UInt8) (n : Nat) : List ElfPhdr :=
  (List.range n).map (fun i => decodePhdr ((table.drop (i * elfPhdrSize)).take elfPhdrSize))

/-- Only the bytes of the table matter. -/
theorem phdrTable_take (bytes : List UInt8) (n : Nat) :
    phdrTable (bytes.take (n * elfPhdrSize)) n = phdrTable bytes n := by
  unfold phdrTable
  refine List.map_congr_left (fun i hi => ?_)
  have hlt := List.mem_range.mp hi
  have hsize : elfPhdrSize = 56 := rfl
  rw [List.drop_take, List.take_take, Nat.min_eq_left (by rw [hsize]; omega)]

/-- The header of a file. -/
def elfHeader (content : List UInt8) : ElfHeader :=
  decodeHeader (content.take elfHeaderSize)

/-- The program headers of a file. -/
def programHeaders (content : List UInt8) : List ElfPhdr :=
  phdrTable (content.drop (elfHeader content).phoff) (elfHeader content).phnum

/-- What the loader reads and checks before it maps anything. -/
structure Examined (file : FileView) (fileSize : Nat) (header table : List UInt8) (info : ImageInfo) :
    Prop where
  size : file.size = .ok fileSize
  headerRead : readExact file 0 elfHeaderSize = .ok header
  phnum : (decodeHeader header).phnum ≤ elfMaxPhnum
  place : (decodeHeader header).phoff ≤ fileSize
  room : (decodeHeader header).phnum * elfPhdrSize ≤ fileSize - (decodeHeader header).phoff
  tableRead : readExact file (decodeHeader header).phoff ((decodeHeader header).phnum * elfPhdrSize) =
    .ok table
  checked : (phdrTable table (decodeHeader header).phnum).foldlM
    (checkSegment fileSize (decodeHeader header).entry)
    { imageEnd := 0, entryOk := false, anyLoad := false } = .ok info
  entryOk : info.entryOk = true

theorem readImage_examined {phdrs : List ElfPhdr} {entry imageEnd : Nat}
    (h : readImage file = .ok (phdrs, entry, imageEnd)) :
    ∃ fileSize header table info, Examined file fileSize header table info ∧
      phdrs = phdrTable table (decodeHeader header).phnum ∧ entry = (decodeHeader header).entry ∧
      imageEnd = info.imageEnd := by
  unfold readImage at h
  simp only [bind, Except.bind, pure, Except.pure, throw, throwThe,
    MonadExceptOf.throw] at h
  repeat' split at h
  all_goals first | (cases h; done) | skip
  next fileSize hsize _ _ header hheader _ hnum hplace _ table htable _ info hinfo hload =>
  cases h
  rw [not_or, not_or] at hnum
  rw [not_or, not_lt, not_lt] at hplace
  refine ⟨fileSize, header, table, info, ⟨hsize, hheader, ?_, hplace.1, hplace.2, htable, hinfo, ?_⟩,
    rfl, rfl, rfl⟩
  · exact Nat.not_lt.mp hnum.2.2
  · simp only [Bool.or_eq_true, not_or, Bool.not_eq_eq_eq_not] at hload
    simpa using hload.2

/-- The bytes that a loadable segment takes from the file are there. -/
structure SegmentFits (fileSize : Nat) (ph : ElfPhdr) : Prop where
  memsz : 0 < ph.memsz
  filesz : ph.filesz ≤ ph.memsz
  inside : ph.offset + ph.filesz ≤ fileSize

/-- A segment that the processor may run holds the entry point. -/
def HoldsEntry (entry : Nat) (ph : ElfPhdr) : Prop :=
  ph.type = ptLoad ∧ hasFlag ph.flags pfX = true ∧ ph.vaddr ≤ entry ∧ entry < ph.vaddr + ph.memsz

theorem checkSegment_found {fileSize entry : Nat} {info info' : ImageInfo}
    (h : checkSegment fileSize entry info ph = .ok info') :
    (info'.imageEnd = info.imageEnd ∨ ph.type = ptLoad ∧ segmentEnd ph = info'.imageEnd) ∧
      (info'.entryOk = true → info.entryOk = true ∨ HoldsEntry entry ph) ∧
      (ph.type = ptLoad → SegmentFits fileSize ph) := by
  unfold checkSegment at h
  split at h
  next htype =>
    cases h
    exact ⟨Or.inl rfl, Or.inl, fun hcon => absurd hcon htype⟩
  next htype =>
  rw [not_not] at htype
  split at h
  · cases h
  next hmem =>
  split at h
  · cases h
  next hfile =>
  split at h
  · cases h
  split at h
  · cases h
  next hrange =>
  split at h
  · cases h
  cases h
  rw [not_or] at hmem hfile
  refine ⟨?_, ?_, fun _ => ⟨by omega, by omega, by omega⟩⟩
  · dsimp only
    rcases Nat.le_total info.imageEnd (alignUp (ph.vaddr + ph.memsz) pageSize) with hcmp | hcmp
    · exact Or.inr ⟨htype, (Nat.max_eq_right hcmp).symm⟩
    · exact Or.inl (Nat.max_eq_left hcmp)
  · intro hentry
    dsimp only at hentry
    rw [Bool.or_eq_true, Bool.and_eq_true, Bool.and_eq_true, decide_eq_true_eq, decide_eq_true_eq]
      at hentry
    rcases hentry with hold | ⟨⟨hx, hlo⟩, hhi⟩
    · exact Or.inl hold
    · exact Or.inr ⟨htype, hx, hlo, by omega⟩

theorem checkSegments_found {fileSize entry : Nat} (phs : List ElfPhdr) {info info' : ImageInfo}
    (h : phs.foldlM (checkSegment fileSize entry) info = .ok info') :
    (info'.imageEnd = info.imageEnd ∨
        ∃ ph ∈ phs, ph.type = ptLoad ∧ segmentEnd ph = info'.imageEnd) ∧
      (info'.entryOk = true → info.entryOk = true ∨ ∃ ph ∈ phs, HoldsEntry entry ph) ∧
      ∀ ph ∈ phs, ph.type = ptLoad → SegmentFits fileSize ph := by
  induction phs generalizing info with
  | nil =>
      cases h
      exact ⟨Or.inl rfl, Or.inl, fun ph hph => absurd hph List.not_mem_nil⟩
  | cons ph phs ih =>
      rw [List.foldlM_cons] at h
      cases hfirst : checkSegment fileSize entry info ph with
      | error e =>
          rw [hfirst] at h
          cases h
      | ok info₁ =>
          rw [hfirst] at h
          obtain ⟨hend, hentry, hfits⟩ := checkSegment_found hfirst
          obtain ⟨hend', hentry', hfits'⟩ := ih h
          refine ⟨?_, ?_, ?_⟩
          · rcases hend' with heq | ⟨q, hq, hfound⟩
            · rcases hend with heq' | ⟨htype, hfound⟩
              · exact Or.inl (heq.trans heq')
              · exact Or.inr ⟨ph, List.mem_cons_self, htype, hfound.trans heq.symm⟩
            · exact Or.inr ⟨q, List.mem_cons_of_mem ph hq, hfound⟩
          · intro hok
            rcases hentry' hok with hok₁ | ⟨q, hq, hholds⟩
            · rcases hentry hok₁ with hok₀ | hholds
              · exact Or.inl hok₀
              · exact Or.inr ⟨ph, List.mem_cons_self, hholds⟩
            · exact Or.inr ⟨q, List.mem_cons_of_mem ph hq, hholds⟩
          · intro q hq htype
            rcases List.mem_cons.mp hq with rfl | hq
            · exact hfits htype
            · exact hfits' q hq htype

/-- What the headers of an accepted file say. -/
structure HeadersOk (content : List UInt8) (entry imageEnd : Nat) : Prop where
  entry_eq : entry = (elfHeader content).entry
  entryIn : ∃ ph ∈ programHeaders content, HoldsEntry entry ph
  imageEnd_eq : ∃ ph ∈ programHeaders content, ph.type = ptLoad ∧ segmentEnd ph = imageEnd
  imageEnd_le : imageEnd ≤ userElfMaxVaddr
  segments : ∀ ph ∈ programHeaders content, ph.type = ptLoad →
    SegmentOk imageEnd ph ∧ SegmentFits content.length ph

theorem readImage_headers {phdrs : List ElfPhdr} {entry imageEnd : Nat}
    (h : readImage file = .ok (phdrs, entry, imageEnd)) (hfile : file.Shows content) :
    phdrs = programHeaders content ∧ HeadersOk content entry imageEnd := by
  obtain ⟨-, hlo, hhi, hseg⟩ := readImage_spec h
  obtain ⟨fileSize, header, table, info, hex, hphdrs, hentry, hend⟩ := readImage_examined h
  have hsize := hfile.size fileSize hex.size
  obtain ⟨hheader, -⟩ := hfile.readExact hex.headerRead
  obtain ⟨htable, -⟩ := hfile.readExact hex.tableRead
  rw [List.drop_zero] at hheader
  have hdecode : decodeHeader header = elfHeader content := by
    rw [hheader]
    rfl
  have hall : phdrTable table (decodeHeader header).phnum = programHeaders content := by
    rw [htable, phdrTable_take, hdecode]
    rfl
  have hchecked := hex.checked
  rw [hall, hsize] at hchecked
  obtain ⟨hfound, hholds, hfits⟩ := checkSegments_found _ hchecked
  rw [hall] at hphdrs
  subst hphdrs
  refine ⟨rfl, ?_, ?_, ?_, hhi, fun ph hph htype => ⟨hseg ph hph htype, hfits ph hph htype⟩⟩
  · rw [hentry, hdecode]
  · rcases hholds hex.entryOk with hcon | hholds
    · cases hcon
    · rw [hentry]
      exact hholds
  · rw [hend]
    rcases hfound with hzero | hfound
    · -- the end of the image lies above the lower bound of the range for images
      rw [hend, hzero] at hlo
      exact absurd hlo (by decide)
    · exact hfound

/-! ## The image -/

/-- A byte of a frame. -/
def frameByte (mem : Nat → Nat → Nat) (f i : Nat) : UInt8 :=
  UInt8.ofNat (mem f (i / 8) / 256 ^ (i % 8))

/-- The byte of a program at an address of a segment: a byte of the file, and zero behind the
part that comes from the file. -/
def segmentByte (content : List UInt8) (ph : ElfPhdr) (addr : Nat) : UInt8 :=
  if addr - ph.vaddr < ph.filesz then (content[ph.offset + (addr - ph.vaddr)]?).getD 0 else 0

theorem ofNat_wordsOf (bytes : List UInt8) (i : Nat) :
    UInt8.ofNat (wordsOf bytes (i / 8) / 256 ^ (i % 8)) = (bytes[i]?).getD 0 := by
  have hmod : i % 8 < 8 := Nat.mod_lt i (by decide)
  rw [wordsOf, Bytes.ofNat_leNat_div, List.getElem?_map, List.getElem?_range hmod, Option.map_some,
    Option.getD_some, Nat.div_add_mod]

/-- The bytes of a page are those of its segment. -/
theorem pageBytes_byte (hfile : file.Shows content) {v : Nat} {bytes : List UInt8}
    (hbytes : pageBytes file ph v = .ok bytes) (hv : ph.vaddr ≤ v) {i : Nat} (hi : i < pageSize) :
    (bytes[i]?).getD 0 = segmentByte content ph (v + i) := by
  unfold pageBytes at hbytes
  unfold segmentByte
  have hsub : v + i - ph.vaddr = v - ph.vaddr + i := by omega
  rw [hsub]
  split at hbytes
  next hlen =>
    obtain ⟨htake, -⟩ := hfile.readExact hbytes
    have hoff : v - ph.vaddr < ph.filesz := by
      by_contra hcon
      rw [copyLen, if_neg hcon] at hlen
      exact Nat.lt_irrefl 0 hlen
    rw [htake, copyLen, if_pos hoff, List.getElem?_take, List.getElem?_drop]
    by_cases hin : v - ph.vaddr + i < ph.filesz
    · rw [if_pos (by omega), if_pos hin, Nat.add_assoc]
    · rw [if_neg (by omega), if_neg hin]
      rfl
  next hlen =>
    cases hbytes
    rw [if_neg]
    · rfl
    · intro hin
      apply hlen
      have hsize : pageSize = 4096 := rfl
      rw [copyLen, if_pos (by omega)]
      omega

/-- The flags of a segment in a page table. -/
theorem segmentFlags_effective (nx : Bool) (ph : ElfPhdr) :
    hasFlag (effectiveFlags nx (segmentFlags ph)) pageRw = hasFlag ph.flags pfW ∧
      (nx = true → hasFlag (effectiveFlags nx (segmentFlags ph)) pageNx = !hasFlag ph.flags pfX) := by
  unfold segmentFlags
  cases nx <;> cases hasFlag ph.flags pfW <;> cases hasFlag ph.flags pfX <;> decide

/-- What an address space holds at a page of a segment. -/
structure PageHolds (content : List UInt8) (m : Memory) (a : Account) (s : Nat) (ph : ElfPhdr)
    (v f flags : Nat) : Prop where
  bound : translate m.mem s v = some (f, flags)
  unshared : ∀ s' ∈ a.spaces, ∀ v' flags', UserPage v' → translate m.mem s' v' = some (f, flags') →
    s' = s ∧ v' = v
  unheld : f ∉ a.held
  user : hasFlag flags pageUser = true
  rw : hasFlag flags pageRw = hasFlag ph.flags pfW
  nx : m.nxSupported = true → hasFlag flags pageNx = !hasFlag ph.flags pfX
  bytes : ∀ i < pageSize, frameByte m.mem f i = segmentByte content ph (v + i)

/-- An address space holds the program of a file. -/
structure ImageLoaded (content : List UInt8) (m : Memory) (a : Account) (s entry imageEnd : Nat) :
    Prop where
  headers : HeadersOk content entry imageEnd
  pages : ∀ ph ∈ programHeaders content, ∀ v, v % pageSize = 0 → InSegment ph v →
    ∃ f flags, PageHolds content m a s ph v f flags
  apart : (programHeaders content).Pairwise
    (fun p q => ∀ v, UserPage v → InSegment p v → ¬InSegment q v)
  rest : ∀ v, UserPage v → (∀ ph ∈ programHeaders content, ¬InSegment ph v) →
    translate m.mem s v = none

/-- A page that a leaf maps is the only one with its frame. -/
theorem leaf_unshared (h : Ledger m a free) (hs : s ∈ a.spaces) {v e : Nat} (hv : UserPage v)
    (hleaf : leafAt m s v = some e) {s' v' flags' : Nat} (hs' : s' ∈ a.spaces) (hv' : UserPage v')
    (hbound : translate m.mem s' v' = some (tableOf e, flags')) : s' = s ∧ v' = v := by
  rw [translate_leafAt ⟨_, h⟩ hs' hv', Option.map_eq_some_iff] at hbound
  obtain ⟨e', hleaf', heq⟩ := hbound
  have hframe : tableOf e' = tableOf e := congrArg Prod.fst heq
  have htable := tableAt_leafPos hleaf'
  rw [hframe] at htable
  obtain ⟨hspace, hpos⟩ := h.unique s' hs' s hs _ _ (userPos_leafPos hv'.1) (userPos_leafPos hv.1)
    (tableOf e) htable (tableAt_leafPos hleaf)
  exact ⟨hspace, leafPos_inj hv'.1 hv.1 hv'.2 hv.2 hpos⟩

theorem PageLoaded.holds (h : Ledger m a free) (hs : s ∈ a.spaces) (hfile : file.Shows content)
    {v : Nat} (hv : UserPage v) (hle : ph.vaddr ≤ v)
    (hloaded : PageLoaded file m s ph v m.nxSupported) :
    ∃ f flags, PageHolds content m a s ph v f flags := by
  obtain ⟨f, bytes, hframe, hleaf, hbytes, hwords⟩ := hloaded.leaf
  obtain ⟨hrw, hnx⟩ := segmentFlags_effective m.nxSupported ph
  have htable := tableOf_leafEntry hframe (effectiveFlags m.nxSupported (segmentFlags ph))
  refine ⟨f, flagsOf (leafEntry f (effectiveFlags m.nxSupported (segmentFlags ph))), ?_, ?_, ?_, ?_,
    ?_, ?_, ?_⟩
  · rw [translate_leafAt ⟨_, h⟩ hs hv, hleaf, Option.map_some, htable]
  · intro s' hs' v' flags' hv' hbound
    rw [← htable] at hbound
    exact leaf_unshared h hs hv hleaf hs' hv' hbound
  · have howned := tableAt_leafPos hleaf
    rw [htable] at howned
    exact (h.owned s hs _ (userPos_leafPos hv.1) f howned).2.2
  · rw [hasFlag_flagsOf_user, hasFlag_leafEntry_user]
  · rw [hasFlag_flagsOf_rw, hasFlag_leafEntry_rw hframe, hrw]
  · intro hsupported
    rw [hasFlag_flagsOf_nx, hasFlag_leafEntry_nx hframe, hnx hsupported]
  · intro i hi
    rw [frameByte, hwords, ofNat_wordsOf]
    exact pageBytes_byte hfile hbytes hle hi

/-- A page of an accepted segment lies in the user half. -/
theorem HeadersOk.userPage {entry imageEnd : Nat} (h : HeadersOk content entry imageEnd)
    (hph : ph ∈ programHeaders content) {v : Nat} (hv : v % pageSize = 0) (hin : InSegment ph v) :
    UserPage v := by
  obtain ⟨hok, -⟩ := h.segments ph hph hin.1
  have hlt : v < segmentEnd ph := hin.2.2
  have hbelow : segmentEnd ph ≤ imageEnd := hok.below
  have hle := h.imageEnd_le
  have hmax : userElfMaxVaddr = 0x0000700000000000 := rfl
  have hend : userSpaceEnd = 0x0000800000000000 := rfl
  exact ⟨by omega, hv⟩

/-- Loading a program into a fresh address space. -/
theorem elfLoad_image (h : Ledger m a free) (hs : s ∈ a.spaces)
    (hfresh : ∀ v, UserPage v → translate m.mem s v = none) (hfile : file.Shows content) :
    Eff.Post (elfLoad file s) m (fun r m' => ∀ entry imageEnd, r = .ok (entry, imageEnd) →
      ImageLoaded content m' a s entry imageEnd) := by
  have hempty : ∀ v, UserPage v → leafAt m s v = none := by
    intro v hv
    have hnone := hfresh v hv
    rw [translate_leafAt ⟨_, h⟩ hs hv, Option.map_eq_none_iff] at hnone
    exact hnone
  unfold elfLoad
  split
  next => exact Eff.post_of_eq rfl nofun
  next phdrs entry imageEnd hread =>
    obtain ⟨rfl, hok⟩ := readImage_headers hread hfile
    have hsegments := fun ph hph htype => (hok.segments ph hph htype).1
    refine Eff.post_bind (loadSegments_loaded hs (programHeaders content) hsegments
      (Loaded.start h)) (fun _ _ _ => nofun) ?_
    intro _ m' hdone
    obtain ⟨hloaded, hapart, -⟩ := hdone rfl
    obtain ⟨free', hled⟩ := hloaded.ledger
    refine Eff.post_of_eq rfl (fun entry' imageEnd' hr => ?_)
    cases hr
    refine ⟨hok, ?_, hapart, ?_⟩
    · intro ph hph v hv hin
      have hpage := hok.userPage hph hv hin
      have hready := hloaded.pages ph v hpage (Or.inr ⟨hph, hin⟩)
      rw [← hloaded.nx] at hready
      exact hready.holds hled hs hfile hpage hin.2.1
    · intro v hv hout
      have hleaf : leafAt m' s v = leafAt m s v := by
        refine hloaded.rest v hv (fun ph hcon => ?_)
        rcases hcon with hcon | ⟨hph, hin⟩
        · exact hcon
        · exact hout ph hph hin
      rw [translate_leafAt hloaded.ledger hs hv, hleaf, hempty v hv]
      rfl

end Process
end Nyxis
