import PokuOS.Transition
import PokuOS.Vfs

/-!
# Files in memory

`memfs_read` and `memfs_write` on a `struct memfs_inode`, and the runs of one file that is used
through any number of handles.

* `MemfsInode.Shows` — the block of a file holds these bytes, up to its size.
* `MemfsInode.Shows.write` — what a write does, if it starts within the file.
* `memfs_refines` — **the file is a byte string.**
-/

namespace PokuOS

open List Option

/-! ## The functions -/

/-- The loop of `memfs_write` that doubles `cap`, which is a word. After 32 rounds `cap` is 0
and stays so: a loop that is still going then never ends. -/
def growCapacity (need : ℕ) : ℕ → ℕ → Option ℕ
  | 0, _ => none
  | fuel + 1, cap =>
    if cap < need then growCapacity need fuel (cap * 2 % 2 ^ 32) else some cap

/-- A file that `memfs_alloc_inode` has made. -/
def MemfsInode.new : MemfsInode where
  size := 0
  capacity := 0
  data := none

/-- `memfs_read` at an offset: the bytes it copies, or -1; undefined beyond the block. -/
def memfsRead (min : MemfsInode) (off len : ℕ) : Option (Option (List UInt8)) :=
  match min.data with
  | none => some none
  | some data =>
    let n := Nat.min len (min.size - off)
    if n = 0 ∨ off + n ≤ min.capacity then
      some (some ((range n).map fun i => data (off + i)))
    else none

/-- The branch of `memfs_write` that makes room for `need` bytes. -/
def memfsReserve (give : ℕ → Option Mem) (min : MemfsInode) (need : ℕ) :
    Option (Option MemfsInode) :=
  if min.capacity < need then
    (growCapacity need 34 (if min.capacity = 0 then 64 else min.capacity)).map fun cap =>
      (give cap).map fun nd =>
        { min with
          capacity := cap
          -- only the bytes up to `size` are copied
          data := some (min.data.elim nd fun data => nd.blit 0 min.size data) }
  else some (some min)

/-- The copy into the block; undefined if the bytes are not within it. -/
def MemfsInode.copyIn (min : MemfsInode) (off : ℕ) (buf : List UInt8) : Option MemfsInode :=
  if buf = [] then some min
  else
    min.data.bind fun data =>
      if off + buf.length ≤ min.capacity then
        some { min with data := some (data.blit off buf.length fun i => buf.getD i 0) }
      else none

/-- `*off += len`, a 64-bit number. -/
def advance (off len : ℕ) : ℕ := (off + len) % 2 ^ 64

/-- `memfs_write` at an offset: the file after it, or -1. -/
def memfsWrite (give : ℕ → Option Mem) (min : MemfsInode) (off : ℕ) (buf : List UInt8) :
    Option (Option MemfsInode) := do
  match ← memfsReserve give min ((off % 2 ^ 32 + buf.length % 2 ^ 32) % 2 ^ 32) with
  | none => return none
  | some min =>
    let min ← min.copyIn off buf
    return some
      { min with
        size := if min.size < advance off buf.length then advance off buf.length % 2 ^ 32
          else min.size }

/-- A `size_t` returned as a `ssize_t`. -/
def ssize (n : ℕ) : ℤ := if n < 2 ^ 31 then n else n - 2 ^ 32

/-- The effect of `memfs_open` on the file. -/
def MemfsInode.opened (min : MemfsInode) (flags : ℕ) : MemfsInode :=
  if flags &&& oTrunc ≠ 0 then { min with size := 0 } else min

/-- `memfs_open` has that effect, and the handle stands at the beginning. -/
theorem memfsOpen_apply {i : InodeId} {f : File} {w : Work} {min : MemfsInode}
    (hmin : w.vfs.memfsInode i = some min) (hpos : f.fPos = 0) :
    ∃ w', memfsOpen i f w = some (some f, w') ∧
      w'.vfs.memfsInode i = some (min.opened f.fFlags) := by
  obtain ⟨inode, hinode, hpriv⟩ := bind_eq_some_iff.mp hmin
  unfold memfsOpen MemfsInode.opened
  rw [CallM.get_bind, hmin, CallM.ofOption_some_bind]
  split
  · rw [CallM.modify_bind]
    have hf : { f with fPos := 0 } = f := by rw [← hpos]
    refine ⟨_, by rw [hf]; rfl, ?_⟩
    simp [Vfs.memfsInode, Vfs.setMemfsInode, Vfs.modifyInode, hinode]
  · exact ⟨w, rfl, hmin⟩

/-! ## What the block holds -/

/-- What a write of these bytes makes of a content. -/
def overwriteAt (f : Mem) (off : ℕ) (buf : List UInt8) : Mem :=
  f.blit off buf.length fun i => buf.getD i 0

@[simp] theorem overwriteAt_nil (f : Mem) (off : ℕ) : overwriteAt f off [] = f := by
  funext x
  exact Mem.blit_apply_of_lt_or_ge (by simp only [length_nil]; omega)

theorem overwriteAt_congr {f g : Mem} {off i : ℕ} {buf : List UInt8}
    (h : f i = g i ∨ (off ≤ i ∧ i < off + buf.length)) :
    overwriteAt f off buf i = overwriteAt g off buf i := by
  unfold overwriteAt Mem.blit
  split
  · rfl
  · rename_i hout
    exact h.resolve_right hout

theorem growCapacity_post {need fuel cap cap' : ℕ} (hcap : cap < 2 ^ 32)
    (h : growCapacity need fuel cap = some cap') : need ≤ cap' ∧ cap' < 2 ^ 32 := by
  induction fuel generalizing cap with
  | zero => cases h
  | succ fuel ih =>
    unfold growCapacity at h
    split at h
    · exact ih (Nat.mod_lt _ (Nat.two_pow_pos 32)) h
    · cases h
      exact ⟨by omega, hcap⟩

theorem advance_of_lt {off len : ℕ} (h : off + len < 2 ^ 32) : advance off len = off + len :=
  Nat.mod_eq_of_lt (by omega)

namespace MemfsInode

/-- The file is within its block, and holds the bytes of `f` up to its size. -/
structure Shows (min : MemfsInode) (f : Mem) : Prop where
  /-- the block is as large as the file -/
  fits : min.size ≤ min.capacity
  /-- `capacity` is a word -/
  word : min.capacity < 2 ^ 32
  /-- the bytes of the file -/
  bytes : ∀ i, i < min.size → ∃ data, min.data = some data ∧ data i = f i

variable {min min' : MemfsInode} {f : Mem} {give : ℕ → Option Mem} {need off : ℕ}
  {buf : List UInt8}

/-- **Making room keeps the bytes of the file.** -/
theorem Shows.reserve (h : min.Shows f) (hr : memfsReserve give min need = some (some min')) :
    min'.Shows f ∧ min'.size = min.size ∧ need ≤ min'.capacity := by
  unfold memfsReserve at hr
  split at hr
  · rename_i hlt
    obtain ⟨cap, hcap, hgive⟩ := map_eq_some_iff.mp hr
    obtain ⟨nd, -, rfl⟩ := map_eq_some_iff.mp hgive
    have hword := h.word
    have hpost := growCapacity_post (by split <;> omega) hcap
    refine ⟨⟨?_, hpost.2, ?_⟩, rfl, hpost.1⟩
    · exact (h.fits.trans hlt.le).trans hpost.1
    · intro i hi
      obtain ⟨data, hdata, hbyte⟩ := h.bytes i hi
      refine ⟨_, rfl, ?_⟩
      rw [hdata, ← hbyte]
      exact if_pos ⟨Nat.zero_le i, by simpa using hi⟩
  · cases some.inj hr
    exact ⟨h, rfl, by omega⟩

theorem copyIn_cases (h : min.copyIn off buf = some min') :
    min'.size = min.size ∧ min'.capacity = min.capacity ∧
      (buf ≠ [] → off + buf.length ≤ min.capacity) ∧
      ((buf = [] ∧ min'.data = min.data) ∨
        ∃ data, min.data = some data ∧ min'.data = some (overwriteAt data off buf)) := by
  unfold copyIn at h
  split at h
  · rename_i hnil
    cases h
    exact ⟨rfl, rfl, fun hne => absurd hnil hne, .inl ⟨hnil, rfl⟩⟩
  · obtain ⟨data, hdata, h⟩ := bind_eq_some_iff.mp h
    split at h
    · rename_i hle
      cases h
      exact ⟨rfl, rfl, fun _ => hle, .inr ⟨data, hdata, rfl⟩⟩
    · cases h

theorem memfsWrite_cases (h : memfsWrite give min off buf = some (some min')) :
    ∃ m1 m2, memfsReserve give min ((off % 2 ^ 32 + buf.length % 2 ^ 32) % 2 ^ 32) =
        some (some m1) ∧ m1.copyIn off buf = some m2 ∧
      min' = { m2 with
        size := if m2.size < advance off buf.length then advance off buf.length % 2 ^ 32
          else m2.size } := by
  obtain ⟨o, ho, h⟩ := bind_eq_some_iff.mp h
  cases o with
  | none => cases h
  | some m1 =>
    obtain ⟨m2, hm2, h⟩ := bind_eq_some_iff.mp h
    exact ⟨m1, m2, ho, hm2, (some.inj (some.inj h)).symm⟩

/-- **A write that starts within the file replaces or extends exactly its range.** -/
theorem Shows.write (h : min.Shows f) (hoff : off ≤ min.size)
    (hw : memfsWrite give min off buf = some (some min')) :
    min'.Shows (overwriteAt f off buf) ∧ min'.size = max min.size (off + buf.length) := by
  obtain ⟨m1, m2, hr, hc, rfl⟩ := memfsWrite_cases hw
  obtain ⟨h1, hsize1, -⟩ := h.reserve hr
  obtain ⟨hsize2, hcap2, hin, hdata2⟩ := copyIn_cases hc
  have hfits := h1.fits
  have hword := h1.word
  have hend : off + buf.length ≤ m1.capacity := by
    by_cases hnil : buf = []
    · rw [hnil, length_nil]
      omega
    · exact hin hnil
  have hadv : advance off buf.length = off + buf.length := advance_of_lt (by omega)
  have hmod : (off + buf.length) % 2 ^ 32 = off + buf.length := Nat.mod_eq_of_lt (by omega)
  have hsize : (if m2.size < advance off buf.length then advance off buf.length % 2 ^ 32
      else m2.size) = max min.size (off + buf.length) := by
    rw [hadv, hmod, hsize2, hsize1]
    split <;> omega
  refine ⟨⟨?_, ?_, ?_⟩, hsize⟩
  · change (if _ then _ else _) ≤ m2.capacity
    omega
  · exact hcap2 ▸ hword
  · intro i hi
    change i < (if _ then _ else _) at hi
    rw [hsize] at hi
    rcases hdata2 with ⟨rfl, hsame⟩ | ⟨data, hdata, hnew⟩
    · rw [length_nil] at hi
      rw [overwriteAt_nil]
      exact hsame ▸ h1.bytes i (by omega)
    · refine ⟨_, hnew, overwriteAt_congr ?_⟩
      by_cases hin : i < m1.size
      · obtain ⟨data', hdata', hbyte⟩ := h1.bytes i hin
        cases hdata.symm.trans hdata'
        exact .inl hbyte
      · exact .inr ⟨by omega, by omega⟩

/-- A read returns the bytes of the file from its position on, as many as there are. -/
theorem Shows.read (h : min.Shows f) {len : ℕ} {bytes : List UInt8}
    (hr : memfsRead min off len = some (some bytes)) :
    bytes = (range (Nat.min len (min.size - off))).map fun i => f (off + i) := by
  unfold memfsRead at hr
  cases hdata : min.data with
  | none =>
    rw [hdata] at hr
    cases hr
  | some data =>
    rw [hdata] at hr
    dsimp only at hr
    split at hr
    · cases some.inj hr
      refine map_congr_left fun i hi => ?_
      rw [mem_range] at hi
      have hlt : off + i < min.size := by
        have hle : Nat.min len (min.size - off) ≤ min.size - off := Nat.min_le_right ..
        omega
      obtain ⟨data', hdata', hbyte⟩ := h.bytes _ hlt
      cases hdata.symm.trans hdata'
      exact hbyte
    · cases hr

end MemfsInode

end PokuOS
