import Nyxis.Fat16.Store
import Nyxis.Nyfs.Store
import Nyxis.Syscall.Files
import Nyxis.Syscall.Uaccess

/-!
# Reading, writing and seeking

The calls {lit}`sys_read`, {lit}`sys_write` and {lit}`sys_seek`.  A transfer is cut into chunks;
each chunk goes through the driver, which may fail or stop short, and through the copy to or
from user memory, which may fault.  The offset of the handle is advanced below the calls, by
{lit}`vfs_read` and {lit}`vfs_write`, and {lit}`sys_read` takes it back when the copy to the user
has failed.

User memory is given by its bytes, by what {lit}`paging_is_user_range` answers and by the
addresses at which an access faults.  The calls hold whatever these are; for the page tables of
the kernel they are given by {lit}`UserMemory.ofTables`.

Main results:

- Theorem {lit}`copyFromUser_ofTables`: user memory behind page tables.
- Theorems {lit}`readLoop_reading` and {lit}`writeLoop_writing`: the chunks of a transfer.
- Theorem {lit}`file_offsets_exact`: every call moves the offset by what it has transferred.
-/

namespace Nyxis
namespace Syscall

open Vfs

variable {σ : Type}

/-! ## User memory -/

/-- The memory of a user program, as the kernel may touch it. -/
structure UserMemory where
  bytes : Nat → UInt8
  inRange : (start len : Nat) → (write : Bool) → Bool
  faults : (addr : Nat) → (write : Bool) → Bool

namespace UserMemory

/-- {lit}`nx_uaccess_copy` out of user memory. -/
def copyIn (u : UserMemory) : (src len : Nat) → Except Nstatus (List UInt8)
  | _, 0 => .ok []
  | src, len + 1 =>
      if u.faults src false then
        .error .NinvalidPointer
      else
        match copyIn u ((src + 1) % 2 ^ 64) len with
        | .error e => .error e
        | .ok bytes => .ok (u.bytes src :: bytes)

/-- {lit}`copy_from_user` into a buffer of the kernel. -/
def copyFromUser (u : UserMemory) (src len : Nat) : Except Nstatus (List UInt8) :=
  if len = 0 then .ok []
  else if u.inRange src len false then copyIn u src len
  else .error .NinvalidPointer

/-- {lit}`nx_uaccess_copy` into user memory.  What has been copied before a fault stays. -/
def copyOut : (dst : Nat) → List UInt8 → Eff Nstatus UserMemory Unit
  | _, [] => pure ()
  | dst, b :: bytes => do
      let fault ← Eff.gets (fun u => u.faults dst true)
      if fault then
        Eff.fail .NinvalidPointer
      else
        Eff.modify (fun u => { u with bytes := Function.update u.bytes dst b })
        copyOut ((dst + 1) % 2 ^ 64) bytes

/-- {lit}`copy_to_user` from a buffer of the kernel. -/
def copyToUser (dst : Nat) (bytes : List UInt8) : Eff Nstatus UserMemory Unit := do
  if bytes = [] then
    pure ()
  else
    let ok ← Eff.gets (fun u => u.inRange dst bytes.length true)
    if ok then copyOut dst bytes else Eff.fail .NinvalidPointer

end UserMemory

/-! ## The calls -/

def ioChunk : Nat := 512
def nxIoMax : Nat := 0x100000

def nxSeekSet : Nat := 0
def nxSeekCur : Nat := 1
def nxSeekEnd : Nat := 2

/-- The handle tables and the file system, the memory of each process and what has been printed. -/
structure Io (σ : Type) where
  files : Files σ
  users : Nat → UserMemory
  console : List UInt8

abbrev IoM (σ : Type) := Eff Stop (Io σ)

def onFiles {α : Type} (m : FilesM σ α) : IoM σ α :=
  fun s => ((m s.files).1, { s with files := (m s.files).2 })

/-- Call a function on the memory of a process, for its status. -/
def onUser {α : Type} (p : Nat) (m : Eff Nstatus UserMemory α) : IoM σ (Except Nstatus α) :=
  fun s => (.ok (m (s.users p)).1,
    { s with users := Function.update s.users p (m (s.users p)).2 })

/-- {lit}`printk_write`. -/
def printkWrite (bytes : List UInt8) : IoM σ Unit :=
  Eff.modify (fun s => { s with console := s.console ++ bytes })

/-- The file of a slot. -/
def slotFile (p i : Nat) : IoM σ Handle := do
  let t ← onFiles (curHandles p)
  pure (t i).file

/-- Replace the file of a slot. -/
def setSlotFile (p i : Nat) (file : Handle) : IoM σ Unit := do
  let t ← onFiles (curHandles p)
  onFiles (setTable p (Function.update t i { t i with file := file }))

variable (drivers : Nat → VfsOps σ)

/-- {lit}`vfs_read` on the file of a slot, for its status. -/
def readSlot (p i size : Nat) : IoM σ (Except Nstatus (List UInt8)) := do
  let file ← slotFile p i
  match ← attemptStatus (onFiles (onVfs (vfsRead drivers file size))) with
  | .error e => pure (.error e)
  | .ok (bytes, file') =>
      setSlotFile p i file'
      pure (.ok bytes)

/-- {lit}`vfs_write` on the file of a slot, for its status. -/
def writeSlot (p i : Nat) (bytes : List UInt8) : IoM σ (Except Nstatus Nat) := do
  let file ← slotFile p i
  match ← attemptStatus (onFiles (onVfs (vfsWrite drivers file bytes))) with
  | .error e => pure (.error e)
  | .ok (written, file') =>
      setSlotFile p i file'
      pure (.ok written)

/-- Take the offset of a slot back. -/
def rewindSlot (p i got : Nat) : IoM σ Unit := do
  let file ← slotFile p i
  setSlotFile p i (file.moved ((file.offset + 2 ^ 64 - got) % 2 ^ 64))

/-- An error after some progress is not reported. -/
def stopShort (total : Nat) (e : Nstatus) : IoM σ Nat :=
  if total = 0 then failWith e else pure total

/-- The loop of {lit}`sys_read`.  Every round but the last one moves a byte, so a fuel of the length
is never used up before the length is reached. -/
def readLoop (p i buf len : Nat) : (fuel total : Nat) → IoM σ Nat
  | 0, total => pure total
  | fuel + 1, total =>
      if len ≤ total then
        pure total
      else do
        let want := min (len - total) ioChunk
        match ← readSlot drivers p i want with
        | .error e => stopShort total e
        | .ok chunk =>
            if chunk = [] then
              pure total
            else
              match ← onUser p (UserMemory.copyToUser ((buf + total) % 2 ^ 64) chunk) with
              | .error e =>
                  rewindSlot p i chunk.length
                  stopShort total e
              | .ok () =>
                  if chunk.length < want then
                    pure (total + chunk.length)
                  else
                    readLoop p i buf len fuel (total + chunk.length)

/-- {lit}`sys_read`. -/
def sysRead (p handle buf len : Nat) : IoM σ Nat := do
  let table ← onFiles (curHandles p)
  match handleLookup table handle nxRightRead with
  | .error e => failWith e
  | .ok i =>
      if len = 0 then
        pure 0
      else
        let len := min len nxIoMax
        if (table i).type ≠ .file then
          failWith .Nunsupported
        else
          readLoop drivers p i buf len len 0

/-- The loop of {lit}`sys_write`. -/
def writeLoop (p i buf len : Nat) : (fuel total : Nat) → IoM σ Nat
  | 0, total => pure total
  | fuel + 1, total =>
      if len ≤ total then
        pure total
      else do
        let n := min (len - total) ioChunk
        let user ← Eff.gets (fun s => s.users p)
        match user.copyFromUser ((buf + total) % 2 ^ 64) n with
        | .error e => stopShort total e
        | .ok chunk =>
            let table ← onFiles (curHandles p)
            if (table i).type = .console then
              printkWrite chunk
              writeLoop p i buf len fuel (total + n)
            else
              match ← writeSlot drivers p i chunk with
              | .error e => stopShort total e
              | .ok written =>
                  if written < n then
                    pure (total + written)
                  else
                    writeLoop p i buf len fuel (total + n)

/-- {lit}`sys_write`. -/
def sysWrite (p handle buf len : Nat) : IoM σ Nat := do
  let table ← onFiles (curHandles p)
  match handleLookup table handle nxRightWrite with
  | .error e => failWith e
  | .ok i =>
      if len = 0 then
        pure 0
      else
        let len := min len nxIoMax
        writeLoop drivers p i buf len len 0

/-- A number in a signed register of 64 bits. -/
def toI64 (x : Int) : Int :=
  x.bmod (2 ^ 64)

/-- The base of a seek. -/
def seekBase (file : Handle) (whence : Nat) : IoM σ Int :=
  if whence = nxSeekSet then
    pure 0
  else if whence = nxSeekCur then
    pure (toI64 file.offset)
  else if whence = nxSeekEnd then do
    let st ← onFiles (onVfs (vfsFstat drivers file))
    pure (toI64 st.size)
  else
    failWith .NinvalidArg

/-- {lit}`sys_seek`. -/
def sysSeek (p handle offset whence : Nat) : IoM σ Int := do
  let table ← onFiles (curHandles p)
  match handleLookup table handle nxRightSeek with
  | .error e => failWith e
  | .ok i =>
      if (table i).type ≠ .file then
        failWith .Nunsupported
      else
        let base ← seekBase drivers (table i).file whence
        if base < 0 ∨ base > 0x3FFFFFFFFFFFFFFF then
          failWith .Noverflow
        else if toI64 offset > 0x3FFFFFFFFFFFFFFF ∨ toI64 offset < -0x3FFFFFFFFFFFFFFF then
          failWith .NinvalidArg
        else
          let target := toI64 (base + toI64 offset)
          if target < 0 then
            failWith .NinvalidArg
          else
            setSlotFile p i ((table i).file.moved target.toNat)
            pure target

/-! ## Copying -/

/-- The address of a byte of a user buffer. -/
def userAddr (buf j : Nat) : Nat :=
  (buf + j) % 2 ^ 64

theorem userAddr_add (buf a b : Nat) : userAddr (userAddr buf a) b = userAddr buf (a + b) := by
  unfold userAddr
  rw [Nat.mod_add_mod, Nat.add_assoc]

theorem userAddr_inj {buf a b : Nat} (ha : a < 2 ^ 64) (hb : b < 2 ^ 64)
    (h : userAddr buf a = userAddr buf b) : a = b := by
  unfold userAddr at h
  omega

/-- Copying out reads the bytes one after the other. -/
theorem UserMemory.copyIn_ok {u : UserMemory} {src len : Nat} {bytes : List UInt8}
    (h : u.copyIn (userAddr src 0) len = .ok bytes) :
    bytes = (List.range len).map (fun j => u.bytes (userAddr src j)) := by
  induction len generalizing src bytes with
  | zero =>
      cases h
      rfl
  | succ len ih =>
      unfold UserMemory.copyIn at h
      split at h
      next => cases h
      next =>
        have hnext : (userAddr src 0 + 1) % 2 ^ 64 = userAddr (src + 1) 0 := by
          unfold userAddr
          omega
        rw [hnext] at h
        split at h
        next => cases h
        next rest hrest =>
          cases h
          rw [ih hrest, List.range_succ_eq_map, List.map_cons, List.map_map]
          congr 1
          refine List.map_congr_left (fun j _ => ?_)
          change u.bytes (userAddr (src + 1) j) = u.bytes (userAddr src (j + 1))
          rw [userAddr, userAddr, Nat.add_right_comm, Nat.add_assoc]

theorem UserMemory.copyFromUser_ok {u : UserMemory} {src len : Nat} {bytes : List UInt8}
    (h : u.copyFromUser (userAddr src 0) len = .ok bytes) :
    bytes = (List.range len).map (fun j => u.bytes (userAddr src j)) := by
  unfold UserMemory.copyFromUser at h
  split at h
  next hzero =>
    cases h
    rw [hzero]
    rfl
  next =>
    split at h
    next => exact UserMemory.copyIn_ok h
    next => cases h

/-- What a copy to user memory leaves: outside of the buffer nothing has changed, and without a
fault the buffer holds the bytes. -/
structure CopiedOut (u u' : UserMemory) (dst : Nat) (bytes : List UInt8) (r : Except Nstatus Unit) :
    Prop where
  frame : ∀ a, (∀ j, j < bytes.length → a ≠ userAddr dst j) → u'.bytes a = u.bytes a
  copied : r = .ok () → ∀ j, j < bytes.length → bytes[j]? = some (u'.bytes (userAddr dst j))

theorem UserMemory.copyOut_copied {bytes : List UInt8} (hlen : bytes.length ≤ 2 ^ 64) (dst : Nat)
    (u : UserMemory) :
    Eff.Post (UserMemory.copyOut (userAddr dst 0) bytes) u (fun r u' =>
      CopiedOut u u' dst bytes r) := by
  induction bytes generalizing dst u with
  | nil => exact ⟨fun _ _ => rfl, fun _ j hj => absurd hj (Nat.not_lt_zero j)⟩
  | cons b bytes ih =>
      rw [List.length_cons] at hlen
      unfold UserMemory.copyOut
      refine Eff.post_gets_bind ?_
      split
      next => exact ⟨fun _ _ => rfl, nofun⟩
      next =>
        have hnext : (userAddr dst 0 + 1) % 2 ^ 64 = userAddr (dst + 1) 0 := by
          unfold userAddr
          omega
        have hshift : ∀ j, userAddr (dst + 1) j = userAddr dst (j + 1) := by
          intro j
          rw [userAddr, userAddr, Nat.add_right_comm, Nat.add_assoc]
        rw [hnext]
        refine Eff.post_bind_ok rfl (Eff.post_mono (ih (by omega) (dst + 1) _) ?_)
        intro r u' hrest
        constructor
        · intro a ha
          rw [hrest.frame a (fun j hj => ?_)]
          · exact Function.update_of_ne (ha 0 (by rw [List.length_cons]; omega)) ..
          · rw [hshift]
            exact ha (j + 1) (by rw [List.length_cons]; omega)
        · intro hok j hj
          rw [List.length_cons] at hj
          cases j with
          | zero =>
              rw [hrest.frame (userAddr dst 0) (fun k hk heq => ?_)]
              · change some b = some (Function.update u.bytes (userAddr dst 0) b (userAddr dst 0))
                rw [Function.update_self]
              · rw [hshift] at heq
                have := userAddr_inj (by omega) (by omega) heq
                omega
          | succ j =>
              rw [List.getElem?_cons_succ, hrest.copied hok j (by omega), hshift]

theorem UserMemory.copyToUser_copied {bytes : List UInt8} (hlen : bytes.length ≤ 2 ^ 64) (dst : Nat)
    (u : UserMemory) :
    Eff.Post (UserMemory.copyToUser (userAddr dst 0) bytes) u (fun r u' =>
      CopiedOut u u' dst bytes r) := by
  unfold UserMemory.copyToUser
  split
  next hnil =>
    subst hnil
    exact ⟨fun _ _ => rfl, fun _ j hj => absurd hj (Nat.not_lt_zero j)⟩
  next =>
    refine Eff.post_gets_bind ?_
    split
    next => exact UserMemory.copyOut_copied hlen dst u
    next => exact ⟨fun _ _ => rfl, nofun⟩

/-! ## User memory behind page tables -/

/-- The user memory that the page tables of an address space give. -/
def UserMemory.ofTables (mem : Nat → Nat → Nat) (pml4 : Nat) : UserMemory where
  bytes addr := (byteAt mem pml4 addr).getD 0
  inRange start len write := Mm.pagingIsUserRange mem pml4 start len write
  faults addr _ := (byteAt mem pml4 addr).isNone

@[simp]
theorem UserMemory.ofTables_faults (mem : Nat → Nat → Nat) (pml4 addr : Nat) (write : Bool) :
    (UserMemory.ofTables mem pml4).faults addr write = (byteAt mem pml4 addr).isNone :=
  rfl

@[simp]
theorem UserMemory.ofTables_bytes (mem : Nat → Nat → Nat) (pml4 addr : Nat) :
    (UserMemory.ofTables mem pml4).bytes addr = (byteAt mem pml4 addr).getD 0 :=
  rfl

@[simp]
theorem UserMemory.ofTables_inRange (mem : Nat → Nat → Nat) (pml4 start len : Nat) (write : Bool) :
    (UserMemory.ofTables mem pml4).inRange start len write =
      Mm.pagingIsUserRange mem pml4 start len write :=
  rfl

/-- The buffer of the kernel after a copy. -/
def HoldsBytes (dst : Nat) (bytes : List UInt8) (k : KernelBytes) : Prop :=
  ∀ j b, bytes[j]? = some b → k (dst + j) = b

theorem nxUaccessCopy_below (mem : Nat → Nat → Nat) (pml4 : Nat) {len dst src addr : Nat}
    (haddr : addr < dst) (k : KernelBytes) :
    (nxUaccessCopy mem pml4 len dst src k).2 addr = k addr := by
  induction len generalizing dst src k with
  | zero => rfl
  | succ len ih =>
      unfold nxUaccessCopy
      cases byteAt mem pml4 src with
      | none => rfl
      | some b =>
          dsimp only
          rw [Eff.modify_bind_run, ih (by omega)]
          exact Function.update_of_ne (by omega) ..

theorem nxUaccessCopy_ofTables (mem : Nat → Nat → Nat) (pml4 dst : Nat) {src len : Nat}
    (hend : src + len < 2 ^ 64) (k : KernelBytes) :
    match (UserMemory.ofTables mem pml4).copyIn src len with
    | .ok bytes => (nxUaccessCopy mem pml4 len dst src k).1 = .ok () ∧
        HoldsBytes dst bytes (nxUaccessCopy mem pml4 len dst src k).2
    | .error e => (nxUaccessCopy mem pml4 len dst src k).1 = .error e := by
  induction len generalizing dst src k with
  | zero => exact ⟨rfl, nofun⟩
  | succ len ih =>
      unfold nxUaccessCopy UserMemory.copyIn
      rw [UserMemory.ofTables_faults, UserMemory.ofTables_bytes]
      cases hbyte : byteAt mem pml4 src with
      | none =>
          rw [if_pos Option.isNone_none]
          rfl
      | some b =>
          rw [Option.isNone_some, if_neg Bool.false_ne_true]
          have hrest := ih (dst + 1) (by omega : src + 1 + len < 2 ^ 64) (Function.update k dst b)
          rw [Nat.mod_eq_of_lt (by omega : src + 1 < 2 ^ 64)]
          cases hcopy : (UserMemory.ofTables mem pml4).copyIn (src + 1) len with
          | error e =>
              rw [hcopy] at hrest
              exact hrest
          | ok bytes =>
              rw [hcopy] at hrest
              refine ⟨hrest.1, ?_⟩
              intro j c hc
              cases j with
              | zero =>
                  change (nxUaccessCopy mem pml4 len (dst + 1) (src + 1) _).2 dst = c
                  rw [nxUaccessCopy_below mem pml4 (Nat.lt_succ_self dst)]
                  exact (Function.update_self ..).trans (Option.some.inj hc)
              | succ j =>
                  have hat := hrest.2 j c hc
                  rw [Nat.add_assoc, Nat.add_comm 1 j] at hat
                  exact hat

/-- Behind page tables, {lit}`copy_from_user` copies what the walk of the processor reads. -/
theorem copyFromUser_ofTables (mem : Nat → Nat → Nat) {pml4 dst src len : Nat} (hdst : dst ≠ 0)
    (hsrc : src < 2 ^ 64) (hlen : len < 2 ^ 64) (k : KernelBytes) :
    match (UserMemory.ofTables mem pml4).copyFromUser src len with
    | .ok bytes => (copyFromUser mem (some pml4) dst src len k).1 = .ok () ∧
        HoldsBytes dst bytes (copyFromUser mem (some pml4) dst src len k).2
    | .error e => (copyFromUser mem (some pml4) dst src len k).1 = .error e := by
  unfold UserMemory.copyFromUser copyFromUser
  by_cases hzero : len = 0
  · rw [if_pos hzero, if_pos hzero]
    exact ⟨rfl, nofun⟩
  · rw [if_neg hzero, if_neg hzero, if_neg hdst]
    rw [UserMemory.ofTables_inRange]
    dsimp only
    by_cases hrange : Mm.pagingIsUserRange mem pml4 src len false = true
    · rw [if_pos hrange, if_pos hrange]
      refine nxUaccessCopy_ofTables mem pml4 dst ?_ k
      -- the check refuses a range that wraps
      have hend : Mm.userSpaceEnd = 0x0000800000000000 := rfl
      unfold Mm.pagingIsUserRange at hrange
      split at hrange
      next => cases hrange
      next =>
        dsimp only at hrange
        split at hrange
        next => cases hrange
        next =>
          split at hrange
          next => cases hrange
          next => omega
    · rw [if_neg hrange, if_neg hrange]
      rfl

/-! ## Slots -/

/-- The driver state below the calls. -/
abbrev Io.drv (s : Io σ) : Drivers σ :=
  s.files.vfs.drv

theorem moveSlot_eq (t : HandleTable) (i offset : Nat) :
    moveSlot t i offset = Function.update t i { t i with file := (t i).file.moved offset } :=
  rfl

@[simp]
theorem moveSlot_file (t : HandleTable) (i offset : Nat) :
    (moveSlot t i offset i).file = (t i).file.moved offset := by
  rw [moveSlot_eq, Function.update_self]

@[simp]
theorem moveSlot_type (t : HandleTable) (i offset : Nat) :
    (moveSlot t i offset i).type = (t i).type := by
  rw [moveSlot_eq, Function.update_self]

theorem moveSlot_of_ne (t : HandleTable) {i j : Nat} (offset : Nat) (h : j ≠ i) :
    moveSlot t i offset j = t j :=
  Function.update_of_ne h ..

@[simp]
theorem moveSlot_moveSlot (t : HandleTable) (i offset offset' : Nat) :
    moveSlot (moveSlot t i offset) i offset' = moveSlot t i offset' := by
  rw [moveSlot_eq t, moveSlot_eq _ i offset', Function.update_self, Function.update_idem, moveSlot_eq]
  rfl

@[simp]
theorem moveSlot_self (t : HandleTable) (i : Nat) : moveSlot t i (t i).file.offset = t := by
  rw [moveSlot_eq, Handle.moved_self]
  exact Function.update_eq_self i t

variable {drivers} {F : FileStore drivers} {p i : Nat} {t : HandleTable} {s s' : Io σ}

theorem onFiles_curHandles (ht : s.files.tables p = some t) :
    onFiles (curHandles p) s = (.ok t, s) := by
  rw [onFiles, curHandles, Eff.gets_bind_run, ht]
  rfl

theorem onFiles_curHandles_none (ht : s.files.tables p = none) :
    onFiles (curHandles p) s = (.error (.status .NnotInitialized), s) := by
  rw [onFiles, curHandles, Eff.gets_bind_run, ht]
  rfl

theorem slotFile_run (ht : s.files.tables p = some t) :
    slotFile p i s = (.ok (t i).file, s) := by
  rw [slotFile, Eff.bind_ok (onFiles_curHandles ht)]
  rfl

/-- The state after the file of a slot has been replaced. -/
def Io.setTable (s : Io σ) (p : Nat) (t : HandleTable) : Io σ :=
  { s with files := { s.files with tables := Function.update s.files.tables p (some t) } }

theorem setSlotFile_run (ht : s.files.tables p = some t) (offset : Nat) :
    setSlotFile p i ((t i).file.moved offset) s = (.ok (), s.setTable p (moveSlot t i offset)) := by
  rw [setSlotFile, Eff.bind_ok (onFiles_curHandles ht)]
  rfl

theorem rewindSlot_run (ht : s.files.tables p = some t) (got : Nat) :
    rewindSlot p i got s =
      (.ok (), s.setTable p (moveSlot t i (((t i).file.offset + 2 ^ 64 - got) % 2 ^ 64))) := by
  rw [rewindSlot, Eff.bind_ok (slotFile_run ht), setSlotFile_run ht]

/-- The rule for a call of the virtual file system whose status is tested. -/
theorem post_onVfs_bind {α β : Type} {m : VfsM σ α} {f : Except Nstatus α → IoM σ β}
    {R : Except Stop α → VfsState σ → Prop} {Q : Except Stop β → Io σ → Prop}
    (h : Eff.Post m s.files.vfs R)
    (hok : ∀ x v, R (.ok x) v →
      Eff.Post (f (.ok x)) { s with files := { s.files with vfs := v } } Q)
    (herr : ∀ e v, R (.error (.status e)) v →
      Eff.Post (f (.error e)) { s with files := { s.files with vfs := v } } Q)
    (hstop : ∀ stop s', (∀ e, stop ≠ .status e) → Q (.error stop) s') :
    Eff.Post (attemptStatus (onFiles (onVfs m)) >>= f) s Q := by
  have hpost : Eff.Post (onFiles (onVfs m)) s (fun r s' =>
      ∃ v, R r v ∧ s' = { s with files := { s.files with vfs := v } }) := ⟨_, h, rfl⟩
  refine post_attemptStatus_bind hpost ?_ ?_ ?_ ?_
  · rintro x s' ⟨v, hv, rfl⟩
    exact hok x v hv
  · rintro e s' ⟨v, hv, rfl⟩
    exact herr e v hv
  · intro s' _
    exact hstop _ _ nofun
  · intro s' _
    exact hstop _ _ nofun

/-- What {lit}`vfs_read` does to the state when it is called on a slot. -/
structure SlotRead (F : FileStore drivers) (p i : Nat) (t : HandleTable) (size : Nat) (s s' : Io σ)
    (r : Except Nstatus (List UInt8)) : Prop where
  users : s'.users = s.users
  same : F.SameFiles s.drv s'.drv
  failed : ∀ e, r = .error e → s'.files.tables = s.files.tables
  tables : ∀ bytes, r = .ok bytes → s'.files.tables = Function.update s.files.tables p
    (some (moveSlot t i (((t i).file.offset + bytes.length) % 2 ^ 64)))
  length_le : ∀ bytes, r = .ok bytes → bytes.length ≤ size
  bytes : ∀ bytes, r = .ok bytes →
    bytes <+: (F.content s.drv (t i).file).drop (t i).file.offset

theorem readSlot_post (ht : s.files.tables p = some t) (hopen : F.IsOpen s.drv (t i).file)
    (size : Nat) :
    Eff.Post (readSlot drivers p i size) s (fun r s' =>
      (∀ x, r = .ok x → SlotRead F p i t size s s' x) ∧ ∀ e, r ≠ .error (.status e)) := by
  refine Eff.post_bind_ok (slotFile_run ht) ?_
  refine post_onVfs_bind (F.vfsRead hopen size) ?_ ?_ ?_
  · rintro ⟨bytes, file'⟩ v ⟨hsame, hread⟩
    have hresult := hread bytes file' rfl
    obtain rfl := hresult.handle
    have hset := setSlotFile_run (s := { s with files := { s.files with vfs := v } }) (i := i) ht
    refine Eff.post_bind_ok (hset _) ⟨?_, nofun⟩
    intro x hx
    cases hx
    refine ⟨rfl, hsame, nofun, ?_, ?_, ?_⟩
    · intro bytes' heq
      cases heq
      rfl
    · intro bytes' heq
      cases heq
      exact hresult.length_le
    · intro bytes' heq
      cases heq
      exact hresult.bytes
  · rintro e v ⟨hsame, -⟩
    refine ⟨?_, nofun⟩
    intro x hx
    cases hx
    exact ⟨rfl, hsame, fun _ _ => rfl, nofun, nofun, nofun⟩
  · intro stop s' hstop
    refine ⟨nofun, ?_⟩
    intro e heq
    cases heq
    exact hstop e rfl

/-- What {lit}`vfs_write` does to the state when it is called on a slot. -/
structure SlotWritten (F : FileStore drivers) (p i : Nat) (t : HandleTable) (bytes : List UInt8)
    (s s' : Io σ) (r : Except Nstatus Nat) : Prop where
  users : s'.users = s.users
  console : s'.console = s.console
  stays : ∀ g, F.IsOpen s.drv g → F.IsOpen s'.drv g
  before : F.KeepsBefore s.drv s'.drv (t i).file (t i).file.offset
  failed : ∀ e, r = .error e → s'.files.tables = s.files.tables
  tables : ∀ count, r = .ok count → s'.files.tables = Function.update s.files.tables p
    (some (moveSlot t i (((t i).file.offset + count) % 2 ^ 64)))
  count_le : ∀ count, r = .ok count → count ≤ bytes.length
  stored : ∀ count, r = .ok count → ∀ j, j < count →
    (F.content s'.drv (t i).file)[(t i).file.offset + j]? = bytes[j]?

theorem writeSlot_post (ht : s.files.tables p = some t) (hopen : F.IsOpen s.drv (t i).file)
    (bytes : List UInt8) :
    Eff.Post (writeSlot drivers p i bytes) s (fun r s' =>
      (∀ x, r = .ok x → SlotWritten F p i t bytes s s' x) ∧ ∀ e, r ≠ .error (.status e)) := by
  refine Eff.post_bind_ok (slotFile_run ht) ?_
  refine post_onVfs_bind (F.vfsWrite hopen bytes) ?_ ?_ ?_
  · rintro ⟨count, file'⟩ v ⟨hstays, hbefore, hwrite⟩
    have hresult := hwrite count file' rfl
    obtain rfl := hresult.handle
    have hset := setSlotFile_run (s := { s with files := { s.files with vfs := v } }) (i := i) ht
    refine Eff.post_bind_ok (hset _) ⟨?_, nofun⟩
    intro x hx
    cases hx
    refine ⟨rfl, rfl, hstays, hbefore, nofun, ?_, ?_, ?_⟩
    · intro count' heq
      cases heq
      rfl
    · intro count' heq
      cases heq
      exact hresult.count_le
    · intro count' heq
      cases heq
      exact hresult.stored
  · rintro e v ⟨hstays, hbefore, -⟩
    refine ⟨?_, nofun⟩
    intro x hx
    cases hx
    exact ⟨rfl, rfl, hstays, hbefore, fun _ _ => rfl, nofun, nofun, nofun⟩
  · intro stop s' hstop
    refine ⟨nofun, ?_⟩
    intro e heq
    cases heq
    exact hstop e rfl

/-! ## Reading -/

/-- A read has moved some bytes: they are the bytes of the file from the old offset on, the user has
them, and the handle stands behind them. -/
structure HasRead (F : FileStore drivers) (p i : Nat) (t : HandleTable) (buf len : Nat) (s s' : Io σ)
    (n : Nat) : Prop where
  tables : s'.files.tables =
    Function.update s.files.tables p (some (moveSlot t i ((t i).file.offset + n)))
  same : F.SameFiles s.drv s'.drv
  copied : ∀ j, j < n → (F.content s.drv (t i).file)[(t i).file.offset + j]? =
    some ((s'.users p).bytes (userAddr buf j))
  frame : ∀ a, (∀ j, j < len → a ≠ userAddr buf j) → (s'.users p).bytes a = (s.users p).bytes a
  others : ∀ q, q ≠ p → s'.users q = s.users q
  le : n ≤ len

variable {s₀ : Io σ} {buf len total : Nat}

theorem HasRead.start (ht : s.files.tables p = some t) : HasRead F p i t buf len s s 0 where
  tables := by rw [Nat.add_zero, moveSlot_self, ← ht, Function.update_eq_self]
  same := F.sameFiles_refl _
  copied := fun _ hj => absurd hj (Nat.not_lt_zero _)
  frame := fun _ _ => rfl
  others := fun _ _ => rfl
  le := Nat.zero_le len

theorem HasRead.tables_zero (h : HasRead F p i t buf len s₀ s 0) (ht : s₀.files.tables p = some t) :
    s.files.tables = s₀.files.tables := by
  rw [h.tables, Nat.add_zero, moveSlot_self, ← ht, Function.update_eq_self]

/-- What has been read lies in the file. -/
theorem HasRead.end_le (h : HasRead F p i t buf len s₀ s total) (hpos : 0 < total) :
    (t i).file.offset + total ≤ (F.content s₀.drv (t i).file).length := by
  have hlast := h.copied (total - 1) (by omega)
  have hlt := (List.getElem?_eq_some_iff.mp hlast).1
  omega

theorem HasRead.offset_lt (h : HasRead F p i t buf len s₀ s total)
    (hopen : F.IsOpen s₀.drv (t i).file) (hoff : (t i).file.offset < 2 ^ 64) :
    (t i).file.offset + total < 2 ^ 64 := by
  rcases Nat.eq_zero_or_pos total with hzero | hpos
  · rw [hzero]
    exact hoff
  · exact Nat.lt_of_le_of_lt (h.end_le hpos) (F.length_lt hopen)

/-- Only the driver has been called. -/
theorem HasRead.undisturbed (h : HasRead F p i t buf len s₀ s total) (husers : s'.users = s.users)
    (hsame : F.SameFiles s.drv s'.drv) (htables : s'.files.tables = s.files.tables) :
    HasRead F p i t buf len s₀ s' total where
  tables := htables.trans h.tables
  same := h.same.trans hsame
  copied j hj := by
    rw [husers]
    exact h.copied j hj
  frame a ha := by
    rw [husers]
    exact h.frame a ha
  others q hq := by
    rw [husers]
    exact h.others q hq
  le := h.le

/-- What holds at the end of a read: it has moved what it returns, and nothing if it fails. -/
def ReadEnds (F : FileStore drivers) (p i : Nat) (t : HandleTable) (buf len : Nat) (s₀ : Io σ)
    (r : Except Stop Nat) (s : Io σ) : Prop :=
  (∀ n, r = .ok n → HasRead F p i t buf len s₀ s n) ∧
    ∀ e, r = .error (.status e) → HasRead F p i t buf len s₀ s 0

theorem HasRead.ends (h : HasRead F p i t buf len s₀ s total) :
    ReadEnds F p i t buf len s₀ (.ok total) s := by
  refine ⟨?_, nofun⟩
  intro n hn
  cases hn
  exact h

theorem HasRead.stopShort (h : HasRead F p i t buf len s₀ s total) (e : Nstatus) :
    Eff.Post (stopShort total e) s (ReadEnds F p i t buf len s₀) := by
  unfold Syscall.stopShort
  split
  next hzero =>
    subst hzero
    exact ⟨nofun, fun _ _ => h⟩
  next => exact h.ends

/-- The memory of the user after the copy of one more chunk. -/
theorem HasRead.copied_before (h : HasRead F p i t buf len s₀ s total) {u' : UserMemory}
    {chunk : List UInt8} {r : Except Nstatus Unit} (hlen : len ≤ nxIoMax)
    (hfits : total + chunk.length ≤ len) (hout : CopiedOut (s.users p) u' (buf + total) chunk r) :
    (∀ j, j < total → (F.content s₀.drv (t i).file)[(t i).file.offset + j]? =
      some (u'.bytes (userAddr buf j))) ∧
    ∀ a, (∀ j, j < len → a ≠ userAddr buf j) → u'.bytes a = (s₀.users p).bytes a := by
  have hmax : nxIoMax = 0x100000 := rfl
  have haddr : ∀ k, userAddr (buf + total) k = userAddr buf (total + k) := by
    intro k
    rw [userAddr, userAddr, Nat.add_assoc]
  constructor
  · intro j hj
    rw [hout.frame (userAddr buf j) (fun k hk heq => ?_)]
    · exact h.copied j hj
    · rw [haddr] at heq
      have := userAddr_inj (by omega) (by omega) heq
      omega
  · intro a ha
    rw [hout.frame a (fun k hk => ?_)]
    · exact h.frame a ha
    · rw [haddr]
      exact ha (total + k) (by omega)

/-- A chunk has been read from the file. -/
theorem HasRead.chunk_fits (h : HasRead F p i t buf len s₀ s total)
    (hopen : F.IsOpen s₀.drv (t i).file) {chunk : List UInt8} {size : Nat}
    (hread : SlotRead F p i (moveSlot t i ((t i).file.offset + total)) size s s' (.ok chunk)) :
    chunk <+: (F.content s₀.drv (t i).file).drop ((t i).file.offset + total) ∧
      (chunk ≠ [] → (t i).file.offset + total + chunk.length < 2 ^ 64) := by
  have hbytes := hread.bytes chunk rfl
  rw [moveSlot_file, F.content_moved, Handle.moved_offset, (h.same _ hopen).2] at hbytes
  refine ⟨hbytes, fun hne => ?_⟩
  have hpos := List.length_pos_iff.mpr hne
  have hle := hbytes.length_le
  rw [List.length_drop] at hle
  have hlt := F.length_lt hopen
  omega

/-- One more chunk has reached the user. -/
theorem HasRead.chunk (h : HasRead F p i t buf len s₀ s total)
    (hopen : F.IsOpen s₀.drv (t i).file) (hlen : len ≤ nxIoMax) {chunk : List UInt8} {size : Nat}
    (hsize : size ≤ len - total) (hne : chunk ≠ [])
    (hread : SlotRead F p i (moveSlot t i ((t i).file.offset + total)) size s s' (.ok chunk))
    {u' : UserMemory} (hout : CopiedOut (s.users p) u' (buf + total) chunk (.ok ())) :
    HasRead F p i t buf len s₀ { s' with users := Function.update s'.users p u' }
      (total + chunk.length) := by
  obtain ⟨hbytes, hend⟩ := h.chunk_fits hopen hread
  have hend := hend hne
  have hle := hread.length_le chunk rfl
  have htotal := h.le
  obtain ⟨hbefore, hframe⟩ := h.copied_before hlen (by omega) hout
  constructor
  · refine (hread.tables chunk rfl).trans ?_
    rw [h.tables, Function.update_idem, moveSlot_moveSlot, moveSlot_file, Handle.moved_offset,
      Nat.mod_eq_of_lt hend, Nat.add_assoc]
  · exact h.same.trans hread.same
  · intro j hj
    dsimp only
    rw [Function.update_self]
    by_cases hold : j < total
    · exact hbefore j hold
    · have hcopied := hout.copied rfl (j - total) (by omega)
      have hlt : j - total < chunk.length := by omega
      have hat := List.prefix_iff_getElem?.mp hbytes _ hlt
      rw [List.getElem?_drop, ← List.getElem?_eq_getElem] at hat
      have hindex : (t i).file.offset + total + (j - total) = (t i).file.offset + j := by omega
      have haddr : userAddr (buf + total) (j - total) = userAddr buf j := by
        unfold userAddr
        congr 1
        omega
      rw [hindex] at hat
      rw [hat, hcopied, haddr]
  · intro a ha
    dsimp only
    rw [Function.update_self]
    exact hframe a ha
  · intro q hq
    dsimp only
    rw [Function.update_of_ne hq, hread.users]
    exact h.others q hq
  · omega

/-- A chunk could not be copied to the user, and the handle has been taken back. -/
theorem HasRead.rewound (h : HasRead F p i t buf len s₀ s total)
    (hopen : F.IsOpen s₀.drv (t i).file) (hlen : len ≤ nxIoMax) {chunk : List UInt8} {size : Nat}
    (hsize : size ≤ len - total) (hne : chunk ≠ [])
    (hread : SlotRead F p i (moveSlot t i ((t i).file.offset + total)) size s s' (.ok chunk))
    {u' : UserMemory} {r : Except Nstatus Unit}
    (hout : CopiedOut (s.users p) u' (buf + total) chunk r) :
    Eff.Post (rewindSlot p i chunk.length) { s' with users := Function.update s'.users p u' }
      (fun r' s'' => r' = .ok () ∧ HasRead F p i t buf len s₀ s'' total) := by
  obtain ⟨hbytes, hend⟩ := h.chunk_fits hopen hread
  have hend := hend hne
  have hle := hread.length_le chunk rfl
  have htotal := h.le
  obtain ⟨hbefore, hframe⟩ := h.copied_before hlen (by omega) hout
  have htables := hread.tables chunk rfl
  rw [h.tables, Function.update_idem, moveSlot_moveSlot, moveSlot_file, Handle.moved_offset,
    Nat.mod_eq_of_lt hend] at htables
  have ht' : s'.files.tables p =
      some (moveSlot t i ((t i).file.offset + total + chunk.length)) := by
    rw [htables, Function.update_self]
  have hrun := rewindSlot_run (s := { s' with users := Function.update s'.users p u' }) (i := i) ht'
  refine Eff.post_of_eq (hrun chunk.length) ⟨rfl, ?_⟩
  have hback : ((t i).file.offset + total + chunk.length + 2 ^ 64 - chunk.length) % 2 ^ 64 =
      (t i).file.offset + total := by omega
  constructor
  · rw [moveSlot_file, Handle.moved_offset, hback, moveSlot_moveSlot]
    change Function.update s'.files.tables p _ = _
    rw [htables, Function.update_idem]
  · exact h.same.trans hread.same
  · intro j hj
    change _ = some ((Function.update s'.users p u' p).bytes (userAddr buf j))
    rw [Function.update_self]
    exact hbefore j hj
  · intro a ha
    change (Function.update s'.users p u' p).bytes a = _
    rw [Function.update_self]
    exact hframe a ha
  · intro q hq
    change Function.update s'.users p u' q = _
    rw [Function.update_of_ne hq, hread.users]
    exact h.others q hq
  · exact htotal

/-- The loop of a read, whatever the drivers and the memory of the user do. -/
theorem readLoop_reading (hopen : F.IsOpen s₀.drv (t i).file) (hoff : (t i).file.offset < 2 ^ 64)
    (hlen : len ≤ nxIoMax) (fuel : Nat) (h : HasRead F p i t buf len s₀ s total) :
    Eff.Post (readLoop drivers p i buf len fuel total) s (ReadEnds F p i t buf len s₀) := by
  induction fuel generalizing total s with
  | zero => exact h.ends
  | succ fuel ih =>
      unfold readLoop
      split
      next => exact h.ends
      next hmore =>
        have ht : s.files.tables p = some (moveSlot t i ((t i).file.offset + total)) := by
          rw [h.tables, Function.update_self]
        have hopen' : F.IsOpen s.drv (moveSlot t i ((t i).file.offset + total) i).file := by
          rw [moveSlot_file]
          exact F.isOpen_moved _ (h.same _ hopen).1
        have hwant : min (len - total) ioChunk ≤ len - total := Nat.min_le_left ..
        refine Eff.post_bind (readSlot_post ht hopen' _) ?_ ?_
        · rintro stop s' ⟨-, hstop⟩
          refine ⟨nofun, ?_⟩
          intro e he
          cases he
          exact absurd rfl (hstop e)
        · rintro outcome s' ⟨hread, -⟩
          have hread := hread outcome rfl
          cases outcome with
          | error e => exact (h.undisturbed hread.users hread.same (hread.failed e rfl)).stopShort e
          | ok chunk =>
              dsimp only
              split
              next hnil =>
                subst hnil
                refine (h.undisturbed hread.users hread.same ?_).ends
                have htables := hread.tables [] rfl
                rw [moveSlot_file, Handle.moved_offset, List.length_nil, Nat.add_zero,
                  Nat.mod_eq_of_lt (h.offset_lt hopen hoff), moveSlot_moveSlot, ← ht,
                  Function.update_eq_self] at htables
                exact htables
              next hne =>
                have hshort : chunk.length ≤ 2 ^ 64 := by
                  have hle := hread.length_le chunk rfl
                  have hmax : nxIoMax = 0x100000 := rfl
                  omega
                have hcopy := UserMemory.copyToUser_copied hshort (buf + total) (s.users p)
                refine Eff.post_bind_ok rfl ?_
                obtain ⟨outcome, houtcome⟩ : ∃ r, r = (UserMemory.copyToUser
                  ((buf + total) % 2 ^ 64) chunk (s'.users p)).1 := ⟨_, rfl⟩
                have hout : CopiedOut (s.users p) (UserMemory.copyToUser ((buf + total) % 2 ^ 64) chunk
                    (s'.users p)).2 (buf + total) chunk outcome := by
                  rw [houtcome, hread.users]
                  exact hcopy
                rw [← houtcome]
                cases outcome with
                | error e =>
                    refine Eff.post_bind (h.rewound hopen hlen hwant hne hread hout) ?_ ?_
                    · rintro stop s'' ⟨hok, -⟩
                      cases hok
                    · rintro _ s'' ⟨-, hback⟩
                      exact hback.stopShort e
                | ok _ =>
                    have hnext := h.chunk hopen hlen hwant hne hread hout
                    dsimp only
                    split
                    next => exact hnext.ends
                    next => exact ih hnext

/-! ## Writing -/

/-- A write has moved some bytes: they are the bytes of the user, the file has them from the old
offset on, and the handle stands behind them. -/
structure HasWritten (F : FileStore drivers) (p i : Nat) (t : HandleTable) (buf len : Nat)
    (s s' : Io σ) (n : Nat) : Prop where
  tables : s'.files.tables =
    Function.update s.files.tables p (some (moveSlot t i ((t i).file.offset + n)))
  stays : ∀ g, F.IsOpen s.drv g → F.IsOpen s'.drv g
  stored : ∀ j, j < n → (F.content s'.drv (t i).file)[(t i).file.offset + j]? =
    some ((s.users p).bytes (userAddr buf j))
  before : F.KeepsBefore s.drv s'.drv (t i).file (t i).file.offset
  users : s'.users = s.users
  console : s'.console = s.console
  le : n ≤ len

theorem HasWritten.start (ht : s.files.tables p = some t) : HasWritten F p i t buf len s s 0 where
  tables := by rw [Nat.add_zero, moveSlot_self, ← ht, Function.update_eq_self]
  stays := fun _ hg => hg
  stored := fun _ hj => absurd hj (Nat.not_lt_zero _)
  before := fun _ _ _ hb => hb
  users := rfl
  console := rfl
  le := Nat.zero_le len

theorem HasWritten.tables_zero (h : HasWritten F p i t buf len s₀ s 0)
    (ht : s₀.files.tables p = some t) : s.files.tables = s₀.files.tables := by
  rw [h.tables, Nat.add_zero, moveSlot_self, ← ht, Function.update_eq_self]

/-- What has been written lies in the file. -/
theorem HasWritten.offset_lt (h : HasWritten F p i t buf len s₀ s total)
    (hopen : F.IsOpen s₀.drv (t i).file) (hoff : (t i).file.offset < 2 ^ 64) :
    (t i).file.offset + total < 2 ^ 64 := by
  rcases Nat.eq_zero_or_pos total with hzero | hpos
  · rw [hzero]
    exact hoff
  · have hlast := h.stored (total - 1) (by omega)
    have hlt := (List.getElem?_eq_some_iff.mp hlast).1
    have hlength := F.length_lt (h.stays _ hopen)
    omega

/-- The driver has been called at the place the write has reached. -/
theorem HasWritten.keeps (h : HasWritten F p i t buf len s₀ s total) {chunk : List UInt8}
    {r : Except Nstatus Nat}
    (hwrite : SlotWritten F p i (moveSlot t i ((t i).file.offset + total)) chunk s s' r) :
    (∀ j, j < total → (F.content s'.drv (t i).file)[(t i).file.offset + j]? =
      some ((s₀.users p).bytes (userAddr buf j))) ∧
    F.KeepsBefore s₀.drv s'.drv (t i).file (t i).file.offset := by
  have hbefore := hwrite.before
  rw [moveSlot_file, Handle.moved_offset] at hbefore
  have hkeeps : ∀ o b, o < (t i).file.offset + total →
      (F.content s.drv (t i).file)[o]? = some b → (F.content s'.drv (t i).file)[o]? = some b := by
    intro o b ho hb
    have hat := hbefore o b ho
    rw [F.content_moved, F.content_moved] at hat
    exact hat hb
  constructor
  · intro j hj
    exact hkeeps _ _ (by omega) (h.stored j hj)
  · intro o b ho hb
    exact hkeeps o b (by omega) (h.before o b ho hb)

/-- The driver has refused the chunk. -/
theorem HasWritten.refused (h : HasWritten F p i t buf len s₀ s total) {chunk : List UInt8}
    {e : Nstatus}
    (hwrite : SlotWritten F p i (moveSlot t i ((t i).file.offset + total)) chunk s s' (.error e)) :
    HasWritten F p i t buf len s₀ s' total where
  tables := (hwrite.failed e rfl).trans h.tables
  stays := fun g hg => hwrite.stays g (h.stays g hg)
  stored := (h.keeps hwrite).1
  before := (h.keeps hwrite).2
  users := hwrite.users.trans h.users
  console := hwrite.console.trans h.console
  le := h.le

/-- The driver has stored the front part of one more chunk. -/
theorem HasWritten.chunk (h : HasWritten F p i t buf len s₀ s total)
    (hopen : F.IsOpen s₀.drv (t i).file) (hoff : (t i).file.offset < 2 ^ 64) {n count : Nat}
    (hsize : n ≤ len - total)
    (hwrite : SlotWritten F p i (moveSlot t i ((t i).file.offset + total))
      ((List.range n).map (fun j => (s.users p).bytes (userAddr (buf + total) j))) s s' (.ok count)) :
    HasWritten F p i t buf len s₀ s' (total + count) := by
  have hcount := hwrite.count_le count rfl
  rw [List.length_map, List.length_range] at hcount
  have htotal := h.le
  have hnew : ∀ j, j < count → (F.content s'.drv (t i).file)[(t i).file.offset + total + j]? =
      some ((s₀.users p).bytes (userAddr buf (total + j))) := by
    intro j hj
    have hstored := hwrite.stored count rfl j hj
    rw [moveSlot_file, F.content_moved, Handle.moved_offset, List.getElem?_map,
      List.getElem?_range (by omega), h.users] at hstored
    rw [hstored, Option.map_some, userAddr, userAddr, Nat.add_assoc]
  have hend : (t i).file.offset + total + count < 2 ^ 64 := by
    rcases Nat.eq_zero_or_pos count with hzero | hpos
    · rw [hzero]
      exact h.offset_lt hopen hoff
    · have hlast := hnew (count - 1) (by omega)
      have hlt := (List.getElem?_eq_some_iff.mp hlast).1
      have hlength := F.length_lt (hwrite.stays _ (h.stays _ hopen))
      omega
  constructor
  · refine (hwrite.tables count rfl).trans ?_
    rw [h.tables, Function.update_idem, moveSlot_moveSlot, moveSlot_file, Handle.moved_offset,
      Nat.mod_eq_of_lt hend, Nat.add_assoc]
  · exact fun g hg => hwrite.stays g (h.stays g hg)
  · intro j hj
    by_cases hold : j < total
    · exact (h.keeps hwrite).1 j hold
    · obtain ⟨k, rfl⟩ : ∃ k, j = total + k := ⟨j - total, by omega⟩
      rw [← Nat.add_assoc]
      exact hnew k (by omega)
  · exact (h.keeps hwrite).2
  · exact hwrite.users.trans h.users
  · exact hwrite.console.trans h.console
  · omega

/-- What holds at the end of a write: it has moved what it returns, and nothing if it fails. -/
def WriteEnds (F : FileStore drivers) (p i : Nat) (t : HandleTable) (buf len : Nat) (s₀ : Io σ)
    (r : Except Stop Nat) (s : Io σ) : Prop :=
  (∀ n, r = .ok n → HasWritten F p i t buf len s₀ s n) ∧
    ∀ e, r = .error (.status e) → HasWritten F p i t buf len s₀ s 0

theorem HasWritten.ends (h : HasWritten F p i t buf len s₀ s total) :
    WriteEnds F p i t buf len s₀ (.ok total) s := by
  refine ⟨?_, nofun⟩
  intro n hn
  cases hn
  exact h

theorem HasWritten.stopShort (h : HasWritten F p i t buf len s₀ s total) (e : Nstatus) :
    Eff.Post (stopShort total e) s (WriteEnds F p i t buf len s₀) := by
  unfold Syscall.stopShort
  split
  next hzero =>
    subst hzero
    exact ⟨nofun, fun _ _ => h⟩
  next => exact h.ends

/-- The loop of a write to a file. -/
theorem writeLoop_writing (hfile : (t i).type = .file) (hopen : F.IsOpen s₀.drv (t i).file)
    (hoff : (t i).file.offset < 2 ^ 64) (fuel : Nat)
    (h : HasWritten F p i t buf len s₀ s total) :
    Eff.Post (writeLoop drivers p i buf len fuel total) s (WriteEnds F p i t buf len s₀) := by
  induction fuel generalizing total s with
  | zero => exact h.ends
  | succ fuel ih =>
      unfold writeLoop
      split
      next => exact h.ends
      next hmore =>
        have ht : s.files.tables p = some (moveSlot t i ((t i).file.offset + total)) := by
          rw [h.tables, Function.update_self]
        have hopen' : F.IsOpen s.drv (moveSlot t i ((t i).file.offset + total) i).file := by
          rw [moveSlot_file]
          exact F.isOpen_moved _ (h.stays _ hopen)
        have hwant : min (len - total) ioChunk ≤ len - total := Nat.min_le_left ..
        refine Eff.post_gets_bind ?_
        split
        next e _ => exact h.stopShort e
        next chunk hcopy =>
          have hchunk := UserMemory.copyFromUser_ok hcopy
          subst hchunk
          refine Eff.post_bind_ok (onFiles_curHandles ht) ?_
          rw [moveSlot_type, hfile]
          refine Eff.post_bind (writeSlot_post ht hopen' _) ?_ ?_
          · rintro stop s' ⟨-, hstop⟩
            refine ⟨nofun, ?_⟩
            intro e he
            cases he
            exact absurd rfl (hstop e)
          · rintro outcome s' ⟨hwrite, -⟩
            have hwrite := hwrite outcome rfl
            cases outcome with
            | error e => exact (h.refused hwrite).stopShort e
            | ok count =>
                have hnext := h.chunk hopen hoff hwant hwrite
                have hcount := hwrite.count_le count rfl
                rw [List.length_map, List.length_range] at hcount
                dsimp only
                split
                next => exact hnext.ends
                next hfull =>
                  have heq : count = min (len - total) ioChunk := by omega
                  rw [← heq]
                  exact ih hnext

/-! ## Seeking -/

theorem toI64_of_lt {x : Int} (hlo : -2 ^ 63 ≤ x) (hhi : x < 2 ^ 63) : toI64 x = x := by
  unfold toI64
  rw [Int.bmod_def]
  omega

/-- A number that is not negative in a signed register is what it was. -/
theorem toI64_natCast {b : Nat} (hb : b < 2 ^ 64) (h : 0 ≤ toI64 b) : toI64 b = b := by
  unfold toI64 at h ⊢
  rw [Int.bmod_def] at h ⊢
  omega

/-- The place from which a seek counts. -/
def SeekFrom (drivers : Nat → VfsOps σ) (s : Io σ) (file : Handle) (whence base : Nat) : Prop :=
  (whence = nxSeekSet ∧ base = 0) ∨ (whence = nxSeekCur ∧ base = file.offset) ∨
    (whence = nxSeekEnd ∧ ∃ st, (vfsFstat drivers file s.files.vfs).1 = .ok st ∧ base = st.size)

/-- A seek has moved the handle to a place. -/
structure HasSought (F : FileStore drivers) (p i : Nat) (t : HandleTable) (offset whence : Nat)
    (s s' : Io σ) (target : Int) : Prop where
  tables : s'.files.tables = Function.update s.files.tables p (some (moveSlot t i target.toNat))
  same : F.SameFiles s.drv s'.drv
  nonneg : 0 ≤ target
  lt : target < 2 ^ 63
  exact : ∃ base, SeekFrom drivers s (t i).file whence base ∧ target = base + toI64 offset

theorem seekBase_post {file : Handle} (hopen : F.IsOpen s.drv file) (hoff : file.offset < 2 ^ 64)
    (whence : Nat) :
    Eff.Post (seekBase drivers file whence) s (fun r s' =>
      F.SameFiles s.drv s'.drv ∧ s'.files.tables = s.files.tables ∧
      ∀ x, r = .ok x → ∃ base, SeekFrom drivers s file whence base ∧ base < 2 ^ 64 ∧
        x = toI64 base) := by
  unfold seekBase
  split
  next hset =>
    refine ⟨F.sameFiles_refl _, rfl, ?_⟩
    intro x hx
    cases hx
    exact ⟨0, Or.inl ⟨hset, rfl⟩, by decide, by decide⟩
  next =>
    split
    next hcur =>
      refine ⟨F.sameFiles_refl _, rfl, ?_⟩
      intro x hx
      have hx := Except.ok.inj hx
      subst hx
      exact ⟨file.offset, Or.inr (Or.inl ⟨hcur, rfl⟩), hoff, rfl⟩
    next =>
      split
      next hend =>
        have hstat := F.vfsFstat hopen
        have hpost : Eff.Post (onFiles (onVfs (vfsFstat drivers file))) s (fun r s' =>
            (F.SameFiles s.drv s'.drv ∧ ∀ st, r = .ok st → st.size < 2 ^ 64) ∧
            s'.files.tables = s.files.tables ∧ r = (vfsFstat drivers file s.files.vfs).1) :=
          ⟨hstat, rfl, rfl⟩
        refine Eff.post_bind hpost ?_ ?_
        · rintro e s' ⟨⟨hsame, -⟩, htables, -⟩
          exact ⟨hsame, htables, nofun⟩
        · rintro st s' ⟨⟨hsame, hsize⟩, htables, hrun⟩
          refine ⟨hsame, htables, ?_⟩
          intro x hx
          have hx := Except.ok.inj hx
          subst hx
          exact ⟨st.size, Or.inr (Or.inr ⟨hend, st, hrun.symm, rfl⟩), hsize st rfl, rfl⟩
      next => exact ⟨F.sameFiles_refl _, rfl, nofun⟩

/-- What holds at the end of a seek. -/
def SeekEnds (F : FileStore drivers) (p i : Nat) (t : HandleTable) (offset whence : Nat) (s₀ : Io σ)
    (r : Except Stop Int) (s : Io σ) : Prop :=
  (∀ target, r = .ok target → HasSought F p i t offset whence s₀ s target) ∧
    ∀ e, r = .error (.status e) → s.files.tables = s₀.files.tables ∧ F.SameFiles s₀.drv s.drv

/-! ## The calls -/

/-- The slot of a handle value does not depend on the rights that are asked for. -/
theorem handleLookup_slot {v required j : Nat} (hi : handleLookup t v 0 = .ok i)
    (hj : handleLookup t v required = .ok j) : j = i :=
  (handleLookup_eq_ok.mp hj).1.symm.trans (handleLookup_eq_ok.mp hi).1

variable {handle : Nat}

theorem sysRead_ends (ht : s.files.tables p = some t) (hi : handleLookup t handle 0 = .ok i)
    (hopen : F.IsOpen s.drv (t i).file) (hoff : (t i).file.offset < 2 ^ 64) (buf len : Nat) :
    Eff.Post (sysRead drivers p handle buf len) s
      (ReadEnds F p i t buf (min len nxIoMax) s) := by
  have hstart : HasRead F p i t buf (min len nxIoMax) s s 0 := HasRead.start ht
  refine Eff.post_bind_ok (onFiles_curHandles ht) ?_
  split
  next e _ => exact ⟨nofun, fun _ _ => hstart⟩
  next j hj =>
    obtain rfl := handleLookup_slot hi hj
    split
    next => exact hstart.ends
    next =>
      dsimp only
      split
      next => exact ⟨nofun, fun _ _ => hstart⟩
      next => exact readLoop_reading hopen hoff (Nat.min_le_right ..) _ hstart

theorem sysWrite_ends (ht : s.files.tables p = some t) (hi : handleLookup t handle 0 = .ok i)
    (hfile : (t i).type = .file) (hopen : F.IsOpen s.drv (t i).file)
    (hoff : (t i).file.offset < 2 ^ 64) (buf len : Nat) :
    Eff.Post (sysWrite drivers p handle buf len) s
      (WriteEnds F p i t buf (min len nxIoMax) s) := by
  have hstart : HasWritten F p i t buf (min len nxIoMax) s s 0 := HasWritten.start ht
  refine Eff.post_bind_ok (onFiles_curHandles ht) ?_
  split
  next e _ => exact ⟨nofun, fun _ _ => hstart⟩
  next j hj =>
    obtain rfl := handleLookup_slot hi hj
    split
    next => exact hstart.ends
    next => exact writeLoop_writing hfile hopen hoff _ hstart

theorem sysSeek_ends (ht : s.files.tables p = some t) (hi : handleLookup t handle 0 = .ok i)
    (hopen : F.IsOpen s.drv (t i).file) (hoff : (t i).file.offset < 2 ^ 64) (offset whence : Nat) :
    Eff.Post (sysSeek drivers p handle offset whence) s (SeekEnds F p i t offset whence s) := by
  have hsame := F.sameFiles_refl s.drv
  refine Eff.post_bind_ok (onFiles_curHandles ht) ?_
  split
  next e _ => exact ⟨nofun, fun _ _ => ⟨rfl, hsame⟩⟩
  next j hj =>
    obtain rfl := handleLookup_slot hi hj
    split
    next => exact ⟨nofun, fun _ _ => ⟨rfl, hsame⟩⟩
    next =>
      refine Eff.post_bind (seekBase_post hopen hoff whence) ?_ ?_
      · rintro e s' ⟨hsame', htables, -⟩
        exact ⟨nofun, fun _ _ => ⟨htables, hsame'⟩⟩
      · rintro x s' ⟨hsame', htables, hbase⟩
        obtain ⟨base, hfrom, hlt, hx⟩ := hbase x rfl
        split
        next => exact ⟨nofun, fun _ _ => ⟨htables, hsame'⟩⟩
        next hinside =>
          rw [not_or, Int.not_lt, Int.not_lt] at hinside
          have heq : x = base := by
            rw [hx]
            exact toI64_natCast hlt (hx ▸ hinside.1)
          rw [heq] at hinside
          split
          next => exact ⟨nofun, fun _ _ => ⟨htables, hsame'⟩⟩
          next hoffset =>
            rw [not_or, Int.not_lt, Int.not_lt] at hoffset
            have hsum : toI64 (x + toI64 offset) = base + toI64 offset := by
              rw [heq]
              exact toI64_of_lt (by omega) (by omega)
            dsimp only
            rw [hsum]
            split
            next => exact ⟨nofun, fun _ _ => ⟨htables, hsame'⟩⟩
            next hpos =>
              have ht' : s'.files.tables p = some t := by rw [htables, ht]
              refine Eff.post_bind_ok (setSlotFile_run ht' _) ⟨?_, nofun⟩
              intro target htarget
              have htarget := Except.ok.inj htarget
              subst htarget
              refine ⟨?_, hsame', by omega, by omega, base, hfrom, rfl⟩
              change Function.update s'.files.tables p _ = _
              rw [htables]

/-! ## Runs -/

/-- The files of all file handles are open, and no offset is out of range. -/
structure Io.Ready (F : FileStore drivers) (s : Io σ) : Prop where
  files : ∀ p t i, s.files.tables p = some t → i < nxMaxHandles → (t i).type = .file →
    F.IsOpen s.drv (t i).file ∧ (t i).file.offset < 2 ^ 64

/-- The three calls, with the process that makes them. -/
inductive IoCall
  | read (p handle buf len : Nat)
  | write (p handle buf len : Nat)
  | seek (p handle offset whence : Nat)

/-- Run a call for its effect. -/
def IoCall.exec (drivers : Nat → VfsOps σ) : IoCall → IoM σ Unit
  | .read p handle buf len => do
      let _ ← sysRead drivers p handle buf len
  | .write p handle buf len => do
      let _ ← sysWrite drivers p handle buf len
  | .seek p handle offset whence => do
      let _ ← sysSeek drivers p handle offset whence

/-- The runs of the three calls.  Between two calls the user programs may do what they like to
their memory. -/
inductive IoRun (F : FileStore drivers) : Io σ → Prop
  | start {s : Io σ} (h : s.Ready F) : IoRun F s
  | call {s : Io σ} (h : IoRun F s) (c : IoCall) (hreturned : Returned (c.exec drivers s).1) :
      IoRun F (c.exec drivers s).2
  | user {s : Io σ} (h : IoRun F s) (users : Nat → UserMemory) : IoRun F { s with users := users }

/-- A call that touches neither the tables nor the open files. -/
theorem Io.Ready.undisturbed (h : s.Ready F) (htables : s'.files.tables = s.files.tables)
    (hstays : ∀ g, F.IsOpen s.drv g → F.IsOpen s'.drv g) : s'.Ready F where
  files p t i ht hi hfile := by
    rw [htables] at ht
    obtain ⟨hopen, hoff⟩ := h.files p t i ht hi hfile
    exact ⟨hstays _ hopen, hoff⟩

/-- A call that moves one handle. -/
theorem Io.Ready.moved (h : s.Ready F) (ht : s.files.tables p = some t) {offset : Nat}
    (htables : s'.files.tables = Function.update s.files.tables p (some (moveSlot t i offset)))
    (hstays : ∀ g, F.IsOpen s.drv g → F.IsOpen s'.drv g) (hoff : offset < 2 ^ 64) : s'.Ready F where
  files q u j hu hj hfile := by
    rw [htables] at hu
    by_cases hq : q = p
    · subst hq
      rw [Function.update_self] at hu
      cases hu
      by_cases hslot : j = i
      · subst hslot
        rw [moveSlot_type] at hfile
        rw [moveSlot_file]
        exact ⟨F.isOpen_moved _ (hstays _ (h.files q t j ht hj hfile).1), hoff⟩
      · rw [moveSlot_of_ne t offset hslot] at hfile ⊢
        obtain ⟨hopen, hlt⟩ := h.files q t j ht hj hfile
        exact ⟨hstays _ hopen, hlt⟩
    · rw [Function.update_of_ne hq] at hu
      obtain ⟨hopen, hlt⟩ := h.files q u j hu hj hfile
      exact ⟨hstays _ hopen, hlt⟩

/-- The outcome of a call on something that is no file: no handle has moved. -/
def Aside (s s' : Io σ) : Prop :=
  s'.files = s.files

theorem writeLoop_aside (ht : s.files.tables p = some t) (htype : (t i).type = .console)
    (buf len fuel total : Nat) :
    Eff.Post (writeLoop drivers p i buf len fuel total) s (fun _ s' => Aside s s') := by
  induction fuel generalizing total s with
  | zero => rfl
  | succ fuel ih =>
      unfold writeLoop
      split
      next => rfl
      next =>
        refine Eff.post_gets_bind ?_
        split
        next =>
          unfold Syscall.stopShort
          split
          next => rfl
          next => rfl
        next chunk _ =>
          refine Eff.post_bind_ok (onFiles_curHandles ht) ?_
          rw [if_pos htype]
          exact ih (s := { s with console := s.console ++ chunk }) ht _

/-- A process without handles, and a handle that is refused or is no file. -/
def NoFile (s : Io σ) (p handle : Nat) : Prop :=
  ∀ t i, s.files.tables p = some t → handleLookup t handle 0 = .ok i → (t i).type ≠ .file

/-- A lookup that asks for rights accepts no more than one that does not. -/
theorem handleLookup_weaken {v required j : Nat} (hj : handleLookup t v required = .ok j) :
    handleLookup t v 0 = .ok j := by
  obtain ⟨hslot, hlt, htype, hgen, -⟩ := handleLookup_eq_ok.mp hj
  exact handleLookup_eq_ok.mpr ⟨hslot, hlt, htype, hgen, Nat.and_zero _⟩

theorem sysRead_aside (hno : NoFile s p handle) (buf len : Nat) :
    Eff.Post (sysRead drivers p handle buf len) s (fun _ s' => Aside s s') := by
  cases ht : s.files.tables p with
  | none => exact Eff.post_bind_error (onFiles_curHandles_none ht) rfl
  | some t =>
      refine Eff.post_bind_ok (onFiles_curHandles ht) ?_
      split
      next => rfl
      next j hj =>
        have htype := hno t j ht (handleLookup_weaken hj)
        split
        next => rfl
        next => rfl

theorem sysWrite_aside (hno : NoFile s p handle) (buf len : Nat) :
    Eff.Post (sysWrite drivers p handle buf len) s (fun _ s' => Aside s s') := by
  cases ht : s.files.tables p with
  | none => exact Eff.post_bind_error (onFiles_curHandles_none ht) rfl
  | some t =>
      refine Eff.post_bind_ok (onFiles_curHandles ht) ?_
      split
      next => rfl
      next j hj =>
        have hfile := hno t j ht (handleLookup_weaken hj)
        have hfree := (handleLookup_eq_ok.mp hj).2.2.1
        have htype : (t j).type = .console := by
          cases hslot : (t j).type with
          | free => exact absurd hslot hfree
          | console => rfl
          | file => exact absurd hslot hfile
        split
        next => rfl
        next => exact writeLoop_aside ht htype buf _ _ 0

theorem sysSeek_aside (hno : NoFile s p handle) (offset whence : Nat) :
    Eff.Post (sysSeek drivers p handle offset whence) s (fun _ s' => Aside s s') := by
  cases ht : s.files.tables p with
  | none => exact Eff.post_bind_error (onFiles_curHandles_none ht) rfl
  | some t =>
      refine Eff.post_bind_ok (onFiles_curHandles ht) ?_
      split
      next => rfl
      next j hj =>
        rw [if_pos (hno t j ht (handleLookup_weaken hj))]
        rfl

theorem Aside.ready (h : Aside s s') (hready : s.Ready F) : s'.Ready F := by
  refine hready.undisturbed (congrArg Files.tables h) ?_
  intro g hg
  rw [Io.drv, h]
  exact hg

/-- The offset of a handle that is in order stays in range. -/
theorem ReadEnds.ready {r : Except Stop Nat} (h : ReadEnds F p i t buf len s r s')
    (hreturned : Returned r) (hready : s.Ready F) (ht : s.files.tables p = some t)
    (hopen : F.IsOpen s.drv (t i).file) (hoff : (t i).file.offset < 2 ^ 64) : s'.Ready F := by
  have hmoved : ∀ n, HasRead F p i t buf len s s' n → s'.Ready F := fun n hn =>
    hready.moved ht hn.tables (fun g hg => (hn.same g hg).1) (hn.offset_lt hopen hoff)
  rcases r with (e | _ | _) | n
  · exact hmoved 0 (h.2 e rfl)
  · exact hreturned.elim
  · exact hreturned.elim
  · exact hmoved n (h.1 n rfl)

theorem WriteEnds.ready {r : Except Stop Nat} (h : WriteEnds F p i t buf len s r s')
    (hreturned : Returned r) (hready : s.Ready F) (ht : s.files.tables p = some t)
    (hopen : F.IsOpen s.drv (t i).file) (hoff : (t i).file.offset < 2 ^ 64) : s'.Ready F := by
  have hmoved : ∀ n, HasWritten F p i t buf len s s' n → s'.Ready F := fun n hn =>
    hready.moved ht hn.tables hn.stays (hn.offset_lt hopen hoff)
  rcases r with (e | _ | _) | n
  · exact hmoved 0 (h.2 e rfl)
  · exact hreturned.elim
  · exact hreturned.elim
  · exact hmoved n (h.1 n rfl)

theorem SeekEnds.ready {offset whence : Nat} {r : Except Stop Int}
    (h : SeekEnds F p i t offset whence s r s') (hreturned : Returned r) (hready : s.Ready F)
    (ht : s.files.tables p = some t) : s'.Ready F := by
  rcases r with (e | _ | _) | target
  · obtain ⟨htables, hsame⟩ := h.2 e rfl
    exact hready.undisturbed htables (fun g hg => (hsame g hg).1)
  · exact hreturned.elim
  · exact hreturned.elim
  · have hsought := h.1 target rfl
    have hlt := hsought.lt
    exact hready.moved ht hsought.tables (fun g hg => (hsought.same g hg).1) (by omega)

/-- A call that drops its value comes back when it does. -/
theorem returned_of_drop {α : Type} {m : IoM σ α}
    (h : Returned ((m >>= fun _ => (pure () : IoM σ Unit)) s).1) :
    Returned (m s).1 ∧ ((m >>= fun _ => (pure () : IoM σ Unit)) s).2 = (m s).2 := by
  cases hrun : m s with
  | mk r s' =>
      cases r with
      | ok a =>
          rw [Eff.bind_ok hrun]
          exact ⟨trivial, rfl⟩
      | error e =>
          rw [Eff.bind_error hrun] at h ⊢
          refine ⟨?_, rfl⟩
          cases e with
          | status e => trivial
          | panic => exact h
          | hang => exact h

/-- Each of the three calls keeps the files open and the offsets in range. -/
theorem Io.Ready.step (h : s.Ready F) (c : IoCall) (hreturned : Returned (c.exec drivers s).1) :
    (c.exec drivers s).2.Ready F := by
  have hcases : ∀ p handle, NoFile s p handle ∨ ∃ t i, s.files.tables p = some t ∧
      handleLookup t handle 0 = .ok i ∧ (t i).type = .file ∧ F.IsOpen s.drv (t i).file ∧
      (t i).file.offset < 2 ^ 64 := by
    intro p handle
    by_cases hno : NoFile s p handle
    · exact Or.inl hno
    · unfold NoFile at hno
      push Not at hno
      obtain ⟨t, i, ht, hi, hfile⟩ := hno
      exact Or.inr ⟨t, i, ht, hi, hfile, h.files p t i ht (handleLookup_eq_ok.mp hi).2.1 hfile⟩
  cases c with
  | read p handle buf len =>
      obtain ⟨hback, hstate⟩ := returned_of_drop hreturned
      rw [IoCall.exec, hstate]
      rcases hcases p handle with hno | ⟨t, i, ht, hi, -, hopen, hoff⟩
      · exact (sysRead_aside hno buf len).ready h
      · exact (sysRead_ends ht hi hopen hoff buf len).ready hback h ht hopen hoff
  | write p handle buf len =>
      obtain ⟨hback, hstate⟩ := returned_of_drop hreturned
      rw [IoCall.exec, hstate]
      rcases hcases p handle with hno | ⟨t, i, ht, hi, hfile, hopen, hoff⟩
      · exact (sysWrite_aside hno buf len).ready h
      · exact (sysWrite_ends ht hi hfile hopen hoff buf len).ready hback h ht hopen hoff
  | seek p handle offset whence =>
      obtain ⟨hback, hstate⟩ := returned_of_drop hreturned
      rw [IoCall.exec, hstate]
      rcases hcases p handle with hno | ⟨t, i, ht, hi, -, hopen, hoff⟩
      · exact (sysSeek_aside hno offset whence).ready h
      · exact (sysSeek_ends ht hi hopen hoff offset whence).ready hback h ht

/-- In every state of a run the files are open and the offsets in range. -/
theorem IoRun.ready (h : IoRun F s) : s.Ready F := by
  induction h with
  | start h => exact h
  | call _ c hreturned ih => exact ih.step c hreturned
  | user _ users ih => exact ih.undisturbed rfl (fun _ hg => hg)

/-- The offsets of file handles are exact.  In every state of a run, whatever the user memory and
the drivers do, a read that returns a count has given the user that many bytes of the file from the
offset on, a write that returns a count has stored that many bytes of the user there, and the
handle has moved by that count and no other handle has; a seek that succeeds moves the handle to the
sum of its base and the offset it is given; and a call that fails moves no handle. -/
theorem file_offsets_exact (F : FileStore drivers) (h : IoRun F s) (ht : s.files.tables p = some t)
    (hi : handleLookup t handle 0 = .ok i) (hfile : (t i).type = .file) :
    (∀ buf len, Eff.Post (sysRead drivers p handle buf len) s (fun r s' =>
      (∀ n, r = .ok n → HasRead F p i t buf (min len nxIoMax) s s' n) ∧
      ∀ e, r = .error (.status e) → s'.files.tables = s.files.tables)) ∧
    (∀ buf len, Eff.Post (sysWrite drivers p handle buf len) s (fun r s' =>
      (∀ n, r = .ok n → HasWritten F p i t buf (min len nxIoMax) s s' n) ∧
      ∀ e, r = .error (.status e) → s'.files.tables = s.files.tables)) ∧
    ∀ offset whence, Eff.Post (sysSeek drivers p handle offset whence) s (fun r s' =>
      (∀ target, r = .ok target → HasSought F p i t offset whence s s' target) ∧
      ∀ e, r = .error (.status e) → s'.files.tables = s.files.tables) := by
  obtain ⟨hopen, hoff⟩ := h.ready.files p t i ht (handleLookup_eq_ok.mp hi).2.1 hfile
  refine ⟨fun buf len => ?_, fun buf len => ?_, fun offset whence => ?_⟩
  · refine Eff.post_mono (sysRead_ends ht hi hopen hoff buf len) ?_
    rintro r s' ⟨hok, herr⟩
    exact ⟨hok, fun e he => (herr e he).tables_zero ht⟩
  · refine Eff.post_mono (sysWrite_ends ht hi hfile hopen hoff buf len) ?_
    rintro r s' ⟨hok, herr⟩
    exact ⟨hok, fun e he => (herr e he).tables_zero ht⟩
  · refine Eff.post_mono (sysSeek_ends ht hi hopen hoff offset whence) ?_
    rintro r s' ⟨hok, herr⟩
    exact ⟨hok, fun e he => (herr e he).1⟩

/-- A handle table with one open file, in slot 3. -/
def fileTable (offset : Nat) : HandleTable :=
  Function.update (fun _ => HandleSlot.zero) 3
    { type := .file
      rights := nxRightAll
      generation := 0
      consoleFd := 0
      file := { vnode := some 0, offset := offset, flags := 3, fsPrivate := some 0 } }

/-- A process with that table; its memory from {lit}`0x500000` on faults. -/
def fileIo (offset : Nat) (v : VfsState σ) : Io σ where
  files := { tables := Function.update (fun _ => none) 1 (some (fileTable offset)), vfs := v }
  users _ :=
    { bytes := fun addr => UInt8.ofNat addr
      inRange := fun _ _ _ => true
      faults := fun addr _ => decide (0x500000 ≤ addr) }
  console := []

theorem fileIo_ready {v : VfsState σ} {offset : Nat} (hoff : offset < 2 ^ 64)
    (hopen : F.IsOpen v.drv { vnode := some 0, offset := offset, flags := 3, fsPrivate := some 0 }) :
    (fileIo offset v).Ready F where
  files p t i ht hi hfile := by
    change Function.update (fun _ => none) 1 (some (fileTable offset)) p = some t at ht
    have hp : p = 1 := by
      by_contra hne
      rw [Function.update_of_ne hne] at ht
      cases ht
    subst hp
    rw [Function.update_self] at ht
    cases ht
    have hslot : i = 3 := by
      by_contra hne
      rw [fileTable, Function.update_of_ne hne] at hfile
      cases hfile
    subst hslot
    exact ⟨hopen, hoff⟩

/-- The vnode and the slot that the handle of {lit}`fileTable` names, on a NyFS volume. -/
def nyfsVfs (v : Nyfs.Volume Nyfs.MemoryDisk) : VfsState (Nyfs.NyfsState Nyfs.MemoryDisk) where
  dentries := fun _ => Dentry.zero
  namespaces := fun _ => Namespace.zero
  defaultNamespace := none
  drv :=
    { vnodes := fun _ => { Vnode.zero with ops := some 0, fsPrivate := some 0, inUse := true }
      fs :=
        { volumes := fun _ => v
          vnodeData := fun _ => ⟨true, ⟨some 0, 2⟩⟩
          handleSlots := fun _ => ⟨true, ⟨some 0, 2⟩⟩
          cred := ⟨0, 0⟩ } }

theorem file_offsets_exact_small :
    (sysRead Fat16.fat16Drivers 1 3 0x400000 5 (fileIo 510 Fat16.smallFat16)).1 = .ok 5 ∧
    HasRead Fat16.fat16Store 1 3 (fileTable 510) 0x400000 5 (fileIo 510 Fat16.smallFat16)
      (sysRead Fat16.fat16Drivers 1 3 0x400000 5 (fileIo 510 Fat16.smallFat16)).2 5 ∧
    ∃ v, (fileIo 4 (nyfsVfs v)).Ready Nyfs.nyfsStore ∧ ∀ n,
      (sysWrite Nyfs.nyfsDrivers 1 3 0x400000 3 (fileIo 4 (nyfsVfs v))).1 = .ok n →
      HasWritten Nyfs.nyfsStore 1 3 (fileTable 4) 0x400000 3 (fileIo 4 (nyfsVfs v))
        (sysWrite Nyfs.nyfsDrivers 1 3 0x400000 3 (fileIo 4 (nyfsVfs v))).2 n := by
  have hread : (sysRead Fat16.fat16Drivers 1 3 0x400000 5 (fileIo 510 Fat16.smallFat16)).1 = .ok 5 := by
    decide +kernel
  have hready : (fileIo 510 Fat16.smallFat16).Ready Fat16.fat16Store :=
    fileIo_ready (by decide) ⟨Fat16.helloFile, ⟨0, rfl, rfl, rfl⟩, rfl, rfl,
      ⟨0, Fat16.smallDisk_loads⟩, [4, 7], Fat16.helloFile_hasClusters⟩
  have hfound : ∀ offset, handleLookup (fileTable offset) 3 0 = .ok 3 := by
    intro offset
    refine handleLookup_eq_ok.mpr ⟨rfl, by decide, ?_, ?_, Nat.and_zero _⟩
    · rw [fileTable, Function.update_self]
      exact HandleType.noConfusion
    · rw [fileTable, Function.update_self]
      rfl
  have hfat := file_offsets_exact Fat16.fat16Store (IoRun.start hready)
    (t := fileTable 510) (p := 1) (i := 3) rfl (hfound 510) rfl
  obtain ⟨v, nodes, -, hsound, hfile⟩ := Nyfs.tiny_file (D := Nyfs.MemoryDisk) Nyfs.anyRequest
    (Or.inl rfl) ⟨fun _ => 0⟩ Nyfs.nameOk_a (fun _ => trivial)
  have hnyfs : (fileIo 4 (nyfsVfs v)).Ready Nyfs.nyfsStore :=
    fileIo_ready (by decide) ⟨0, 2, ⟨0, rfl, ⟨0, rfl, rfl⟩⟩, rfl, _, nodes, hsound, hfile.live⟩
  have hwrite := file_offsets_exact Nyfs.nyfsStore (IoRun.start hnyfs)
    (t := fileTable 4) (p := 1) (i := 3) rfl (hfound 4) rfl
  exact ⟨hread, (hfat.1 0x400000 5).1 5 hread, v, hnyfs, (hwrite.2.1 0x400000 3).1⟩

end Syscall
end Nyxis
