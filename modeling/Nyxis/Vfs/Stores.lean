import Mathlib.Data.List.Infix
import Nyxis.Vfs.OpenFiles

/-!
# Drivers that store files

What the calls above a driver rely on: an open handle names a byte string, a read returns a
piece of it, a write stores the bytes it has counted, and either may fail.  A write that fails
may have stored bytes behind the offset of its handle, but none before it.

Main results:

- Definition {lit}`FileStore`: the promises of the drivers, with the byte strings.
- Theorems {lit}`FileStore.vfsRead` and {lit}`FileStore.vfsWrite`: the two calls return the
  handle behind the bytes they have moved.
- Theorem {lit}`FileStore.vfsFstat`: asking for the size leaves the files alone.
-/

namespace Nyxis
namespace Vfs

variable {σ : Type}

/-! ## Handles -/

/-- A handle at another place of its file. -/
def Handle.moved (h : Handle) (offset : Nat) : Handle :=
  { h with offset := offset }

@[simp]
theorem Handle.moved_offset (h : Handle) (offset : Nat) : (h.moved offset).offset = offset :=
  rfl

@[simp]
theorem Handle.moved_moved (h : Handle) (offset offset' : Nat) :
    (h.moved offset).moved offset' = h.moved offset' :=
  rfl

@[simp]
theorem Handle.moved_self (h : Handle) : h.moved h.offset = h :=
  rfl

@[simp]
theorem Handle.moved_vnode (h : Handle) (offset : Nat) : (h.moved offset).vnode = h.vnode :=
  rfl

/-- The vnode of a handle, and the driver it has its operations from. -/
def RunsOn (d : Drivers σ) (h : Handle) (n k : Nat) : Prop :=
  h.vnode = some n ∧ (d.vnodes n).ops = some k

theorem runsOn_of_opsOf {drivers : Nat → VfsOps σ} {v : VfsState σ} {h : Handle} {n : Nat}
    {ops : VfsOps σ} (hops : opsOf drivers v h.vnode = some (n, ops)) :
    ∃ k, RunsOn v.drv h n k ∧ ops = drivers k := by
  obtain ⟨hnode, k, hk, hdriver⟩ := opsOf_eq_some hops
  exact ⟨k, ⟨hnode, hk⟩, hdriver⟩

/-! ## The promises -/

/-- The byte strings behind the open handles, and what the operations of the drivers do to
them. -/
structure FileStore (drivers : Nat → VfsOps σ) where
  IsOpen : Drivers σ → Handle → Prop
  content : Drivers σ → Handle → List UInt8
  isOpen_moved : ∀ {d h} offset, IsOpen d h → IsOpen d (h.moved offset)
  content_moved : ∀ d h offset, content d (h.moved offset) = content d h
  length_lt : ∀ {d h}, IsOpen d h → (content d h).length < 2 ^ 64
  read : ∀ {d h n k op} size, IsOpen d h → RunsOn d h n k → (drivers k).read = some op →
    Eff.Post (op h size) d (fun r d' =>
      (∀ g, IsOpen d g → IsOpen d' g ∧ content d' g = content d g) ∧
      ∀ bytes, r = .ok bytes → bytes.length ≤ size ∧ bytes <+: (content d h).drop h.offset)
  write : ∀ {d h n k op} bytes, IsOpen d h → RunsOn d h n k → (drivers k).write = some op →
    Eff.Post (op h bytes) d (fun r d' =>
      (∀ g, IsOpen d g → IsOpen d' g) ∧
      (∀ o b, o < h.offset → (content d h)[o]? = some b → (content d' h)[o]? = some b) ∧
      ∀ count, r = .ok count → count ≤ bytes.length ∧
        ∀ i, i < count → (content d' h)[h.offset + i]? = bytes[i]?)
  stat : ∀ {d h n k op}, IsOpen d h → RunsOn d h n k → (drivers k).stat = some op →
    Eff.Post (op n) d (fun r d' =>
      (∀ g, IsOpen d g → IsOpen d' g ∧ content d' g = content d g) ∧
      ∀ st, r = .ok st → st.size < 2 ^ 64)

namespace FileStore

variable {drivers : Nat → VfsOps σ} (F : FileStore drivers) {v : VfsState σ} {h : Handle}

/-- The open files and their contents stay what they are. -/
def SameFiles (d d' : Drivers σ) : Prop :=
  ∀ g, F.IsOpen d g → F.IsOpen d' g ∧ F.content d' g = F.content d g

theorem sameFiles_refl (d : Drivers σ) : F.SameFiles d d :=
  fun _ hg => ⟨hg, rfl⟩

variable {F} in
theorem SameFiles.trans {d d' d'' : Drivers σ} (h : F.SameFiles d d') (h' : F.SameFiles d' d'') :
    F.SameFiles d d'' := by
  intro g hg
  obtain ⟨hopen, heq⟩ := h g hg
  obtain ⟨hopen', heq'⟩ := h' g hopen
  exact ⟨hopen', heq'.trans heq⟩

/-- What {lit}`vfs_read` has read, and the handle behind it. -/
structure ReadResult (v : VfsState σ) (h : Handle) (size : Nat) (bytes : List UInt8)
    (h' : Handle) : Prop where
  handle : h' = h.moved ((h.offset + bytes.length) % 2 ^ 64)
  length_le : bytes.length ≤ size
  bytes : bytes <+: (F.content v.drv h).drop h.offset

theorem vfsRead (hopen : F.IsOpen v.drv h) (size : Nat) :
    Eff.Post (Vfs.vfsRead drivers h size) v (fun r v' => F.SameFiles v.drv v'.drv ∧
      ∀ bytes h', r = .ok (bytes, h') → F.ReadResult v h size bytes h') := by
  unfold Vfs.vfsRead
  refine Eff.post_gets_bind ?_
  split
  next => exact ⟨F.sameFiles_refl _, nofun⟩
  next n ops hops =>
    split
    next => exact ⟨F.sameFiles_refl _, nofun⟩
    next read hread =>
      obtain ⟨k, hruns, rfl⟩ := runsOn_of_opsOf hops
      have hpost := F.read size hopen hruns hread
      have hcall : Eff.Post (callDriver (read h size)) v (fun r v' =>
          F.SameFiles v.drv v'.drv ∧ ∀ bytes, r = .ok bytes →
            bytes.length ≤ size ∧ bytes <+: (F.content v.drv h).drop h.offset) := hpost
      refine Eff.post_bind hcall ?_ ?_
      · rintro e v' ⟨hsame, -⟩
        exact ⟨hsame, nofun⟩
      · rintro bytes v' ⟨hsame, hbytes⟩
        obtain ⟨hle, hprefix⟩ := hbytes bytes rfl
        refine ⟨hsame, ?_⟩
        intro bytes' h' heq
        cases heq
        exact ⟨rfl, hle, hprefix⟩

/-- What {lit}`vfs_write` has stored, and the handle behind it. -/
structure WriteResult (v' : VfsState σ) (h : Handle) (bytes : List UInt8) (count : Nat)
    (h' : Handle) : Prop where
  handle : h' = h.moved ((h.offset + count) % 2 ^ 64)
  count_le : count ≤ bytes.length
  stored : ∀ i, i < count → (F.content v'.drv h)[h.offset + i]? = bytes[i]?

/-- No byte before an offset is lost. -/
def KeepsBefore (d d' : Drivers σ) (h : Handle) (offset : Nat) : Prop :=
  ∀ o b, o < offset → (F.content d h)[o]? = some b → (F.content d' h)[o]? = some b

theorem vfsWrite (hopen : F.IsOpen v.drv h) (bytes : List UInt8) :
    Eff.Post (Vfs.vfsWrite drivers h bytes) v (fun r v' =>
      (∀ g, F.IsOpen v.drv g → F.IsOpen v'.drv g) ∧ F.KeepsBefore v.drv v'.drv h h.offset ∧
      ∀ count h', r = .ok (count, h') → F.WriteResult v' h bytes count h') := by
  unfold Vfs.vfsWrite
  refine Eff.post_gets_bind ?_
  split
  next => exact ⟨fun _ hg => hg, fun _ _ _ hb => hb, nofun⟩
  next n ops hops =>
    split
    next => exact ⟨fun _ hg => hg, fun _ _ _ hb => hb, nofun⟩
    next write hwrite =>
      obtain ⟨k, hruns, rfl⟩ := runsOn_of_opsOf hops
      have hpost := F.write bytes hopen hruns hwrite
      have hcall : Eff.Post (callDriver (write h bytes)) v (fun r v' =>
          (∀ g, F.IsOpen v.drv g → F.IsOpen v'.drv g) ∧ F.KeepsBefore v.drv v'.drv h h.offset ∧
          ∀ count, r = .ok count → count ≤ bytes.length ∧
            ∀ i, i < count → (F.content v'.drv h)[h.offset + i]? = bytes[i]?) := hpost
      refine Eff.post_bind hcall ?_ ?_
      · rintro e v' ⟨hstays, hbefore, -⟩
        exact ⟨hstays, hbefore, nofun⟩
      · rintro count v' ⟨hstays, hbefore, hstored⟩
        obtain ⟨hle, hat⟩ := hstored count rfl
        refine ⟨hstays, hbefore, ?_⟩
        intro count' h' heq
        cases heq
        exact ⟨rfl, hle, hat⟩

theorem vfsFstat (hopen : F.IsOpen v.drv h) :
    Eff.Post (Vfs.vfsFstat drivers h) v (fun r v' => F.SameFiles v.drv v'.drv ∧
      ∀ st, r = .ok st → st.size < 2 ^ 64) := by
  unfold Vfs.vfsFstat
  refine Eff.post_gets_bind ?_
  split
  next => exact ⟨F.sameFiles_refl _, nofun⟩
  next n ops hops =>
    split
    next => exact ⟨F.sameFiles_refl _, nofun⟩
    next stat hstat =>
      obtain ⟨k, hruns, rfl⟩ := runsOn_of_opsOf hops
      exact F.stat hopen hruns hstat

end FileStore
end Vfs
end Nyxis
