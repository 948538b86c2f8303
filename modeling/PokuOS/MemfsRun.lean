import PokuOS.Memfs

/-!
# A file in memory and its handles

The runs of one `memfs` file: opens with any flags, and reads and writes through any number of
handles, each with a heap of its own. The log of a run says what each call has returned.

* `ByteFile` — the file as a byte string.
* `memfs_refines` — **a file is a byte string**, as long as nobody truncates it.
* `reads_written` — **no byte is read that was not written**, as long as every write starts
  within the file; `reads_stale` is what happens otherwise.
-/

namespace PokuOS

open List Option

/-! ## Handles -/

/-- A call on the file, through a handle. -/
inductive MemfsCall where
  /-- `vfs_open` with these flags -/
  | vfsOpen (h flags : ℕ)
  | vfsClose (h : ℕ)
  /-- `vfs_read` of so many bytes -/
  | vfsRead (h len : ℕ)
  /-- `vfs_write` of these bytes -/
  | vfsWrite (h : ℕ) (buf : List UInt8)
  deriving DecidableEq

/-- What a call returns. -/
inductive Reply where
  /-- -1 -/
  | failed
  /-- the call has no other result -/
  | done
  /-- the result of a write -/
  | wrote (value : ℤ)
  /-- the result of a read, and the bytes it has copied -/
  | read (value : ℤ) (bytes : List UInt8)
  deriving DecidableEq

/-- A call that has been made. -/
structure Access where
  /-- the call -/
  call : MemfsCall
  /-- `f_pos` before it -/
  off : ℕ
  /-- what it has returned -/
  reply : Reply
  deriving DecidableEq

/-- The handles of a file, and the calls made through them. -/
structure Session where
  /-- `f_pos` of the handles that are open -/
  pos : ℕ → Option ℕ
  /-- the calls, the latest first -/
  log : List Access

namespace Session

/-- Nothing has been opened. -/
def empty : Session where
  pos _ := none
  log := []

/-- A handle is moved. -/
def seek (s : Session) (h : ℕ) (off : Option ℕ) : Session :=
  { s with pos := Function.update s.pos h off }

/-- A call has been made. -/
def note (s : Session) (call : MemfsCall) (off : ℕ) (reply : Reply) : Session :=
  { s with log := ⟨call, off, reply⟩ :: s.log }

end Session

namespace MemfsCall

/-- The handle the call reads or writes through. -/
def handle : MemfsCall → Option ℕ
  | vfsRead h _ | vfsWrite h _ => some h
  | _ => none

/-- `len`. -/
def len : MemfsCall → ℕ
  | vfsRead _ len => len
  | vfsWrite _ buf => buf.length
  | _ => 0

theorem len_of_handle {call : MemfsCall} (h : call.handle = none) : call.len = 0 := by
  cases call with
  | vfsOpen => rfl
  | vfsClose => rfl
  | vfsRead => cases h
  | vfsWrite => cases h

end MemfsCall

/-! ## The file -/

/-- A file and its handles. -/
structure MemfsState where
  /-- the file -/
  min : MemfsInode
  /-- the handles -/
  session : Session

namespace MemfsState

/-- A read has returned. -/
def readDone (st : MemfsState) (h off len : ℕ) : Option (List UInt8) → MemfsState
  | none => { st with session := st.session.note (.vfsRead h len) off .failed }
  | some bytes =>
    { st with
      session := (st.session.seek h (some (advance off bytes.length))).note (.vfsRead h len)
        off (.read (ssize bytes.length) bytes) }

/-- A write has returned. -/
def writeDone (st : MemfsState) (h off : ℕ) (buf : List UInt8) : Option MemfsInode → MemfsState
  | none => { st with session := st.session.note (.vfsWrite h buf) off .failed }
  | some min =>
    { min := min
      session := (st.session.seek h (some (advance off buf.length))).note (.vfsWrite h buf)
        off (.wrote (ssize buf.length)) }

/-- The effect of a call. -/
def step (st : MemfsState) : MemfsCall × Pool → Option MemfsState
  | (.vfsOpen h flags, _) => some
    { min := st.min.opened flags
      session := (st.session.seek h (some 0)).note (.vfsOpen h flags) 0 .done }
  | (.vfsClose h, _) => some
    { st with session := (st.session.seek h none).note (.vfsClose h) 0 .done }
  | (.vfsRead h len, _) => do
    let off ← st.session.pos h
    (memfsRead st.min off len).map (st.readDone h off len)
  | (.vfsWrite h buf, pool) => do
    let off ← st.session.pos h
    (memfsWrite (pool.give []) st.min off buf).map (st.writeDone h off buf)

/-- The call is made through a handle that is open, with a `size_t`. -/
def CanCall (st : MemfsState) (e : MemfsCall × Pool) : Prop :=
  (∀ h, e.1.handle = some h → ∃ off, st.session.pos h = some off) ∧ e.1.len < 2 ^ 32

end MemfsState

/-- The runs of a file that starts as one of these. -/
def memfsSystem (start : MemfsInode → Prop) : System MemfsState (MemfsCall × Pool) where
  init st := start st.min ∧ st.session = .empty
  allowed := MemfsState.CanCall
  step := MemfsState.step

/-! ## A byte string -/

/-- A byte string with these bytes in place of its own. -/
def overwrite (bytes : List UInt8) (off : ℕ) (buf : List UInt8) : List UInt8 :=
  bytes.take off ++ buf ++ bytes.drop (off + buf.length)

/-- A file as a byte string. -/
structure ByteFile where
  /-- the content -/
  bytes : List UInt8
  /-- whether a write has given it a content -/
  written : Bool
  /-- the handles -/
  session : Session

namespace ByteFile

/-- The bytes from an offset on, as many as there are up to `len`. -/
def slice (b : ByteFile) (off len : ℕ) : List UInt8 := (b.bytes.drop off).take len

/-- A read has returned. -/
def readDone (b : ByteFile) (h off len : ℕ) : ByteFile :=
  if b.written then
    { b with
      session := (b.session.seek h (some (off + (b.slice off len).length))).note
        (.vfsRead h len) off (.read (b.slice off len).length (b.slice off len)) }
  else { b with session := b.session.note (.vfsRead h len) off .failed }

/-- A write has returned. -/
def writeDone (b : ByteFile) (h off : ℕ) (buf : List UInt8) (succeeds : Bool) : ByteFile :=
  if succeeds then
    { bytes := overwrite b.bytes off buf
      written := b.written || !buf.isEmpty
      session := (b.session.seek h (some (off + buf.length))).note (.vfsWrite h buf) off
        (.wrote buf.length) }
  else { b with session := b.session.note (.vfsWrite h buf) off .failed }

/-- The effect of a call; a write may fail, and a read does until something has been written. -/
def step (b : ByteFile) : MemfsCall × Bool → Option ByteFile
  | (.vfsOpen h flags, _) => some
    { b with session := (b.session.seek h (some 0)).note (.vfsOpen h flags) 0 .done }
  | (.vfsClose h, _) => some
    { b with session := (b.session.seek h none).note (.vfsClose h) 0 .done }
  | (.vfsRead h len, _) => (b.session.pos h).map fun off => b.readDone h off len
  | (.vfsWrite h buf, succeeds) =>
    (b.session.pos h).map fun off => b.writeDone h off buf succeeds

end ByteFile

/-- The runs of a byte string. -/
def byteSystem : System ByteFile (MemfsCall × Bool) where
  init b := (b.written = false → b.bytes = []) ∧ b.session = .empty
  allowed _ _ := True
  step := ByteFile.step

/-! ## The file behaves as the byte string -/

/-- **The growth loop ends**: from a capacity it has itself produced, at another such. -/
theorem growCapacity_pow {need : ℕ} (hneed : need ≤ 2 ^ 31) (n : ℕ) :
    ∀ {k fuel : ℕ}, k + n = 25 → n < fuel →
      ∃ k', k' ≤ 25 ∧ growCapacity need fuel (64 * 2 ^ k) = some (64 * 2 ^ k') := by
  induction n with
  | zero =>
    intro k fuel hk hfuel
    obtain ⟨fuel, rfl⟩ := Nat.exists_eq_add_one_of_ne_zero hfuel.ne'
    obtain rfl : k = 25 := hk
    exact ⟨25, le_rfl, if_neg (by omega)⟩
  | succ n ih =>
    intro k fuel hk hfuel
    obtain ⟨fuel, rfl⟩ := Nat.exists_eq_add_one_of_ne_zero (Nat.ne_zero_of_lt hfuel)
    unfold growCapacity
    split
    · have hle : 2 ^ (k + 1) ≤ 2 ^ 25 := Nat.pow_le_pow_right (by decide) (by omega)
      have hdouble : 64 * 2 ^ k * 2 % 2 ^ 32 = 64 * 2 ^ (k + 1) := by
        rw [Nat.mul_assoc, ← Nat.pow_succ]
        exact Nat.mod_eq_of_lt (by omega)
      rw [hdouble]
      exact ih (by omega) (by omega)
    · exact ⟨k, by omega, rfl⟩

namespace MemfsInode

/-- What every history of calls leaves: a capacity that has been doubled from 64, of a block
that fits into memory. -/
structure WellFormed (min : MemfsInode) : Prop where
  /-- the file is within its block -/
  fits : min.size ≤ min.capacity
  /-- the block is within memory -/
  small : min.capacity < numPages * pageSize
  /-- there is no block yet, or one that has been doubled from 64 bytes -/
  grown : (min.capacity = 0 ∧ min.data = none) ∨
    ∃ k, k ≤ 25 ∧ min.capacity = 64 * 2 ^ k ∧ min.data.isSome

variable {min : MemfsInode} {off : ℕ} {buf : List UInt8} {pool : Pool}

theorem wellFormed_new : new.WellFormed :=
  ⟨le_rfl, by decide, .inl ⟨rfl, rfl⟩⟩

variable (h : min.WellFormed)
include h

/-- There is a block as soon as the capacity is not zero. -/
theorem WellFormed.isSome_data (hcap : 0 < min.capacity) : min.data.isSome := by
  rcases h.grown with ⟨hzero, -⟩ | ⟨-, -, -, hdata⟩
  · omega
  · exact hdata

/-- **Making room returns**, and leaves the file well formed. -/
theorem WellFormed.reserve {need : ℕ} (hneed : need ≤ 2 ^ 31) :
    ∃ o, memfsReserve (pool.give []) min need = some o ∧
      ∀ min', o = some min' → min'.WellFormed ∧ need ≤ min'.capacity := by
  unfold memfsReserve
  split
  · rename_i hlt
    obtain ⟨k, hk, hstart⟩ :
        ∃ k, k ≤ 25 ∧ (if min.capacity = 0 then 64 else min.capacity) = 64 * 2 ^ k := by
      rcases h.grown with ⟨hzero, -⟩ | ⟨k, hk, hcap, -⟩
      · exact ⟨0, by omega, if_pos hzero⟩
      · have := Nat.two_pow_pos k
        exact ⟨k, hk, by rw [if_neg (by omega), hcap]⟩
    obtain ⟨k', hk', hgrow⟩ :
        ∃ k', k' ≤ 25 ∧ growCapacity need 34 (64 * 2 ^ k) = some (64 * 2 ^ k') :=
      growCapacity_pow hneed (25 - k) (by omega) (by omega)
    rw [hstart, hgrow]
    refine ⟨_, rfl, fun min' hmin' => ?_⟩
    obtain ⟨nd, hnd, rfl⟩ := map_eq_some_iff.mp hmin'
    have hle : 2 ^ k ≤ 2 ^ 25 := Nat.pow_le_pow_right (by decide) hk
    have hpost := growCapacity_post (by omega) hgrow
    refine ⟨⟨?_, Pool.lt_of_give (isSome_of_eq_some hnd), .inr ⟨k', hk', rfl, rfl⟩⟩, hpost.1⟩
    exact (h.fits.trans hlt.le).trans hpost.1
  · refine ⟨_, rfl, fun min' hmin' => ?_⟩
    cases hmin'
    exact ⟨h, by omega⟩

/-- A write of nothing within the file changes nothing. -/
theorem WellFormed.write_nil (hoff : off ≤ min.size) :
    memfsWrite (pool.give []) min off [] = some (some min) := by
  have hfits := h.fits
  have hsmall : min.capacity < 2 ^ 26 := h.small
  have hneed : (off % 2 ^ 32 + ([] : List UInt8).length % 2 ^ 32) % 2 ^ 32 = off := by
    rw [length_nil]
    omega
  have hadv : advance off ([] : List UInt8).length = off := advance_of_lt (by
    rw [length_nil]
    omega)
  have hreserve : memfsReserve (pool.give []) min off = some (some min) := if_neg (by omega)
  unfold memfsWrite
  rw [hneed, hadv, bind_of_some hreserve]
  change some (some { min with size := if min.size < off then off % 2 ^ 32 else min.size }) = _
  rw [if_neg (by omega)]

/-- **A write returns**, and leaves the file well formed. -/
theorem WellFormed.write (hoff : off ≤ min.size) (hend : off + buf.length ≤ 2 ^ 31) :
    ∃ o, memfsWrite (pool.give []) min off buf = some o ∧
      ∀ min', o = some min' → min'.WellFormed ∧ off + buf.length ≤ min'.capacity ∧
        min'.data.isSome = (min.data.isSome || !buf.isEmpty) := by
  by_cases hnil : buf = []
  · subst hnil
    refine ⟨_, h.write_nil hoff, fun min' hmin' => ?_⟩
    cases hmin'
    exact ⟨h, hoff.trans h.fits, by simp⟩
  have hlen : 0 < buf.length := length_pos_iff.mpr hnil
  have hneed : (off % 2 ^ 32 + buf.length % 2 ^ 32) % 2 ^ 32 = off + buf.length := by omega
  obtain ⟨o, ho, hpost⟩ := h.reserve hend
  unfold memfsWrite
  rw [hneed, bind_of_some ho]
  cases o with
  | none => exact ⟨none, rfl, nofun⟩
  | some m1 =>
    obtain ⟨h1, hcap⟩ := hpost m1 rfl
    obtain ⟨data, hdata⟩ := isSome_iff_exists.mp (h1.isSome_data (by omega))
    have hcopy : m1.copyIn off buf =
        some { m1 with data := some (overwriteAt data off buf) } := by
      unfold copyIn
      rw [if_neg hnil, hdata]
      exact if_pos hcap
    have hadv : advance off buf.length = off + buf.length := advance_of_lt (by omega)
    dsimp only
    rw [bind_of_some hcopy, hadv]
    refine ⟨_, rfl, fun min' hmin' => ?_⟩
    cases hmin'
    refine ⟨⟨?_, h1.small, .inr ?_⟩, hcap, ?_⟩
    · change (if m1.size < off + buf.length then (off + buf.length) % 2 ^ 32 else m1.size) ≤
        m1.capacity
      split
      · exact (Nat.mod_le _ _).trans hcap
      · exact h1.fits
    · rcases h1.grown with ⟨hzero, -⟩ | ⟨k, hk, hpow, -⟩
      · omega
      · exact ⟨k, hk, hpow, rfl⟩
    · simp [hnil]

/-- A read returns, with a result if there is a block. -/
theorem WellFormed.read (len : ℕ) :
    ∃ o, memfsRead min off len = some o ∧ o.isSome = min.data.isSome := by
  unfold memfsRead
  cases hdata : min.data with
  | none => exact ⟨none, rfl, rfl⟩
  | some data =>
    refine ⟨_, if_pos ?_, rfl⟩
    have hle : Nat.min len (min.size - off) ≤ min.size - off := Nat.min_le_right ..
    have hfits := h.fits
    omega

end MemfsInode

/-! ### Byte strings -/

variable {bytes : List UInt8}

theorem length_overwrite {buf : List UInt8} {off : ℕ} (hoff : off ≤ bytes.length) :
    (overwrite bytes off buf).length = max bytes.length (off + buf.length) := by
  simp only [overwrite, length_append, length_take, length_drop]
  omega

theorem getD_overwrite {buf : List UInt8} {off : ℕ} (hoff : off ≤ bytes.length) (i : ℕ) :
    (overwrite bytes off buf).getD i 0 = overwriteAt (fun j => bytes.getD j 0) off buf i := by
  have htake : (bytes.take off).length = off := length_take_of_le hoff
  unfold overwriteAt Mem.blit overwrite
  rw [append_assoc]
  by_cases hbefore : i < off
  · rw [if_neg (by omega), getD_append _ _ _ _ (by omega)]
    simp only [getD_eq_getElem?_getD, getElem?_take_of_lt hbefore]
  · rw [getD_append_right _ _ _ _ (by omega), htake]
    split
    · exact getD_append _ _ _ _ (by omega)
    · rw [getD_append_right _ _ _ _ (by omega)]
      simp only [getD_eq_getElem?_getD, getElem?_drop]
      congr 2
      omega

theorem take_drop_eq_map {off len : ℕ} :
    (List.range (Nat.min len (bytes.length - off))).map (fun i => bytes.getD (off + i) 0) =
      (bytes.drop off).take len := by
  have hmin : Nat.min len (bytes.length - off) = min len (bytes.length - off) := rfl
  refine ext_getElem ?_ fun i hi hi' => ?_
  · rw [length_map, length_range, length_take, length_drop, hmin]
  · rw [length_map, length_range, hmin] at hi
    rw [getElem_map, getElem_range, getElem_take, getElem_drop,
      getD_eq_getElem _ _ (by omega)]

/-! ### Runs -/

theorem ssize_of_lt {n : ℕ} (h : n < 2 ^ 31) : ssize n = n := if_pos h

namespace Session

variable {s : Session} {P : ℕ → Prop}

/-- What holds of every position still does when one handle is moved to such a position. -/
theorem forall_seek (hs : ∀ h off, s.pos h = some off → P off) {h : ℕ} {o : Option ℕ}
    (ho : ∀ off, o = some off → P off) :
    ∀ h' off, (s.seek h o).pos h' = some off → P off := by
  intro h' off hpos
  by_cases heq : h' = h
  · subst heq
    exact ho off (by simpa [seek] using hpos)
  · exact hs h' off (by simpa [seek, heq] using hpos)

end Session

variable {e : MemfsCall × Pool}

namespace MemfsState

variable {st : MemfsState} {b : ByteFile}

/-- A call that does not truncate and stays below 2 GiB. -/
def Plain (st : MemfsState) (e : MemfsCall × Pool) : Prop :=
  (∀ h flags, e.1 = .vfsOpen h flags → flags &&& oTrunc = 0) ∧
    ∀ h off, e.1.handle = some h → st.session.pos h = some off → off + e.1.len ≤ 2 ^ 31

/-- The file is the byte string, and so are its handles and all they have returned. -/
structure Refines (st : MemfsState) (b : ByteFile) : Prop where
  /-- the handles, and what the calls have returned -/
  session : b.session = st.session
  /-- the block has room for the file -/
  wf : st.min.WellFormed
  /-- the length -/
  size : st.min.size = b.bytes.length
  /-- the bytes -/
  shows : st.min.Shows fun i => b.bytes.getD i 0
  /-- a block is there once something has been written -/
  written : b.written = st.min.data.isSome
  /-- the handles stand within the file -/
  within : ∀ h off, st.session.pos h = some off → off ≤ st.min.size

/-- A read returns the bytes of the byte string. -/
theorem Refines.read (hst : st.Refines b) {h off : ℕ} (hoff : st.session.pos h = some off)
    (len : ℕ) (pool : Pool) :
    ∃ st', st.step (.vfsRead h len, pool) = some st' ∧ st'.Refines (b.readDone h off len) := by
  obtain ⟨o, ho, hsome⟩ := hst.wf.read len
  refine ⟨st.readDone h off len o, ?_, ?_⟩
  · change (st.session.pos h >>= fun off => (memfsRead st.min off len).map _) = _
    rw [bind_of_some hoff, ho]
    rfl
  rw [← hst.written] at hsome
  unfold ByteFile.readDone
  cases o with
  | none =>
    rw [if_neg (by rw [← hsome]; exact Bool.false_ne_true), hst.session]
    exact ⟨rfl, hst.wf, hst.size, hst.shows, hst.written, hst.within⟩
  | some bytes =>
    have hbytes : bytes = b.slice off len := by
      rw [hst.shows.read ho, hst.size]
      exact take_drop_eq_map
    have hlen : off + bytes.length ≤ st.min.size := by
      have hle := hst.within h off hoff
      rw [hbytes, ByteFile.slice, length_take, length_drop, ← hst.size]
      omega
    have hsmall : st.min.capacity < 2 ^ 26 := hst.wf.small
    have hfits := hst.wf.fits
    have hadv : advance off bytes.length = off + bytes.length := advance_of_lt (by omega)
    have hwritten : b.written = true := hsome.symm
    rw [if_pos hwritten, hst.session, ← hbytes]
    have hssize : ssize bytes.length = bytes.length := ssize_of_lt (by omega)
    simp only [readDone, hadv, hssize]
    refine ⟨rfl, hst.wf, hst.size, hst.shows, hst.written, ?_⟩
    exact Session.forall_seek hst.within fun _ ho => some.inj ho ▸ hlen

/-- A write replaces its range of the byte string, or fails. -/
theorem Refines.write (hst : st.Refines b) {h off : ℕ} (hoff : st.session.pos h = some off)
    {buf : List UInt8} (hend : off + buf.length ≤ 2 ^ 31) (pool : Pool) :
    ∃ st', st.step (.vfsWrite h buf, pool) = some st' ∧
      ∃ succeeds, st'.Refines (b.writeDone h off buf succeeds) := by
  have hle := hst.within h off hoff
  obtain ⟨o, ho, hpost⟩ := hst.wf.write hle hend
  refine ⟨st.writeDone h off buf o, ?_, o.isSome, ?_⟩
  · change (st.session.pos h >>= fun off => (memfsWrite _ st.min off buf).map _) = _
    rw [bind_of_some hoff, ho]
    rfl
  unfold ByteFile.writeDone
  cases o with
  | none =>
    rw [isSome_none, if_neg Bool.false_ne_true, hst.session]
    exact ⟨rfl, hst.wf, hst.size, hst.shows, hst.written, hst.within⟩
  | some min' =>
    obtain ⟨hwf, hcap, hdata⟩ := hpost min' rfl
    obtain ⟨hshows, hsize⟩ := hst.shows.write hle ho
    have hsmall : min'.capacity < 2 ^ 26 := hwf.small
    have hadv : advance off buf.length = off + buf.length := advance_of_lt (by omega)
    have hle' : off ≤ b.bytes.length := hst.size ▸ hle
    rw [isSome_some, if_pos rfl, hst.session]
    have hssize : ssize buf.length = buf.length := ssize_of_lt (by omega)
    simp only [writeDone, hadv, hssize]
    refine ⟨rfl, hwf, ?_, ?_, ?_, ?_⟩
    · rw [length_overwrite hle', ← hst.size]
      exact hsize
    · exact (funext (getD_overwrite hle')) ▸ hshows
    · change (b.written || !buf.isEmpty) = _
      rw [hst.written, hdata]
    · have hgrown : st.min.size ≤ min'.size := hsize ▸ le_max_left ..
      have hnew : off + buf.length ≤ min'.size := hsize ▸ le_max_right ..
      refine Session.forall_seek ?_ fun _ ho => some.inj ho ▸ hnew
      exact fun h' off' hpos => (hst.within h' off' hpos).trans hgrown

/-- **Each call returns, and does what it does on the byte string.** -/
theorem Refines.step (hst : st.Refines b) (hcan : st.CanCall e) (hplain : st.Plain e) :
    ∃ st', st.step e = some st' ∧
      ∃ succeeds b', b.step (e.1, succeeds) = some b' ∧ st'.Refines b' := by
  obtain ⟨call, pool⟩ := e
  cases call with
  | vfsOpen h flags =>
    have hopened : st.min.opened flags = st.min :=
      if_neg (not_not_intro (hplain.1 h flags rfl))
    refine ⟨_, rfl, true, _, rfl, ?_⟩
    rw [hopened, hst.session]
    refine ⟨rfl, hst.wf, hst.size, hst.shows, hst.written, ?_⟩
    exact Session.forall_seek hst.within fun _ ho => some.inj ho ▸ Nat.zero_le _
  | vfsClose h =>
    refine ⟨_, rfl, true, _, rfl, ?_⟩
    rw [hst.session]
    refine ⟨rfl, hst.wf, hst.size, hst.shows, hst.written, ?_⟩
    exact Session.forall_seek hst.within nofun
  | vfsRead h len =>
    obtain ⟨off, hoff⟩ := hcan.1 h rfl
    obtain ⟨st', hstep, hst'⟩ := hst.read hoff len pool
    refine ⟨st', hstep, true, _, ?_, hst'⟩
    change (b.session.pos h).map _ = _
    rw [hst.session, hoff]
    rfl
  | vfsWrite h buf =>
    obtain ⟨off, hoff⟩ := hcan.1 h rfl
    obtain ⟨st', hstep, succeeds, hst'⟩ := hst.write hoff (hplain.2 h off rfl hoff) pool
    refine ⟨st', hstep, succeeds, _, ?_, hst'⟩
    change (b.session.pos h).map _ = _
    rw [hst.session, hoff]
    rfl

theorem refines_init (hwf : st.min.WellFormed) (hempty : st.session = .empty) :
    ∃ b, byteSystem.init b ∧ st.Refines b := by
  have hsmall : st.min.capacity < 2 ^ 26 := hwf.small
  have hfits := hwf.fits
  refine ⟨⟨(range st.min.size).map fun i => (st.min.data.getD fun _ => 0) i,
    st.min.data.isSome, .empty⟩, ⟨?_, rfl⟩, hempty.symm, hwf, ?_, ⟨hfits, by omega, ?_⟩, rfl, ?_⟩
  · intro hnone
    have hcap : ¬ 0 < st.min.capacity := fun hpos =>
      Bool.false_ne_true (hnone.symm.trans (hwf.isSome_data hpos))
    have hsize : st.min.size = 0 := by omega
    simp only [hsize]
    rfl
  · rw [length_map, length_range]
  · intro i hi
    obtain ⟨data, hdata⟩ := isSome_iff_exists.mp (hwf.isSome_data (by omega))
    refine ⟨data, hdata, ?_⟩
    rw [getD_eq_getElem _ _ (by simpa using hi), getElem_map, getElem_range,
      hdata]
    rfl
  · rw [hempty]
    exact nofun

/-- **A write that returns -1 has done nothing.** -/
theorem write_failed {h off : ℕ} {buf : List UInt8} {pool : Pool} {st' : MemfsState}
    {log : List Access} (hstep : st.step (.vfsWrite h buf, pool) = some st')
    (hlog : st'.session.log = ⟨.vfsWrite h buf, off, .failed⟩ :: log) :
    st'.min = st.min ∧ st'.session.pos = st.session.pos := by
  obtain ⟨off', -, hstep⟩ := bind_eq_some_iff.mp hstep
  obtain ⟨o, -, rfl⟩ := map_eq_some_iff.mp hstep
  cases o with
  | none => exact ⟨rfl, rfl⟩
  | some min => cases hlog

end MemfsState

/-- **A file is a byte string.** In every run without truncation, whatever the heap answers: the
handles have returned what the handles of a byte string would have, the file holds its bytes,
every call returns, and a write that returns -1 has done nothing. -/
theorem memfs_refines {st : MemfsState}
    (h : ((memfsSystem MemfsInode.WellFormed).restrict MemfsState.Plain).Reachable st) :
    (∃ b, byteSystem.Reachable b ∧ st.Refines b) ∧ st.min.size ≤ st.min.capacity ∧
      (∀ e, st.CanCall e → st.Plain e → (st.step e).isSome) ∧
      ∀ h off buf pool st' log, st.step (.vfsWrite h buf, pool) = some st' →
        st'.session.log = ⟨.vfsWrite h buf, off, .failed⟩ :: log →
        st'.min = st.min ∧ st'.session.pos = st.session.pos := by
  have hb : ∃ b, byteSystem.Reachable b ∧ st.Refines b := by
    refine h.invariant (I := fun st => ∃ b, byteSystem.Reachable b ∧ st.Refines b)
      (fun st hinit => ?_) (fun st e st' hst hallowed hstep => ?_)
    · obtain ⟨b, hb, hst⟩ := MemfsState.refines_init hinit.1 hinit.2
      exact ⟨b, .init hb, hst⟩
    · obtain ⟨b, hreach, hst⟩ := hst
      obtain ⟨st1, hst1, succeeds, b', hb', href⟩ := hst.step hallowed.1 hallowed.2
      cases hst1.symm.trans hstep
      exact ⟨b', hreach.step trivial hb', href⟩
  obtain ⟨b, hreach, hst⟩ := hb
  refine ⟨⟨b, hreach, hst⟩, hst.wf.fits, fun e hcan hplain => ?_, ?_⟩
  · obtain ⟨st', hstep, -⟩ := hst.step hcan hplain
    exact isSome_of_eq_some hstep
  · exact fun h off buf pool st' log => MemfsState.write_failed

/-- A test for calls through handles that are open, that write below 2 GiB. -/
def MemfsState.canCall (st : MemfsState) (e : MemfsCall × Pool) : Bool :=
  e.1.handle.elim true fun h =>
    (st.session.pos h).any fun off => decide (off + e.1.len ≤ 2 ^ 31)

theorem MemfsState.of_canCall {st : MemfsState} (h : st.canCall e = true) : st.CanCall e ∧
      ∀ h off, e.1.handle = some h → st.session.pos h = some off → off + e.1.len ≤ 2 ^ 31 := by
  unfold canCall at h
  cases hhandle : e.1.handle with
  | none =>
    have hlen : e.1.len = 0 := MemfsCall.len_of_handle hhandle
    exact ⟨⟨fun h0 hh => (nomatch hhandle.symm.trans hh), by omega⟩, nofun⟩
  | some h0 =>
    rw [hhandle] at h
    obtain ⟨off, hoff, hle⟩ := (any_eq_true _ _).mp h
    have hle : off + e.1.len ≤ 2 ^ 31 := of_decide_eq_true hle
    refine ⟨⟨fun h hh => ?_, by omega⟩, fun h off' hh hoff' => ?_⟩
    · cases hhandle.symm.trans hh
      exact ⟨off, hoff⟩
    · cases hh
      cases hoff.symm.trans hoff'
      exact hle

/-- Bytes written through one handle are read through another. -/
theorem memfs_refines_shared : ∃ st b,
    ((memfsSystem MemfsInode.WellFormed).restrict MemfsState.Plain).Reachable st ∧
      st.session.log.head? = some ⟨.vfsRead 1 10, 0, .read 3 [65, 66, 67]⟩ ∧
      byteSystem.Reachable b ∧ st.Refines b := by
  obtain ⟨st, hst, hp⟩ := System.exists_reachable
    (S := (memfsSystem MemfsInode.WellFormed).restrict MemfsState.Plain)
    (fun st e => st.canCall e ∧ (match e.1 with
      | .vfsOpen _ flags => flags &&& oTrunc == 0
      | _ => true : Bool))
    [(.vfsOpen 0 0, .ample), (.vfsOpen 1 0, .ample), (.vfsWrite 0 [65, 66], .ample),
      (.vfsWrite 0 [67], .ample), (.vfsRead 1 10, .ample)]
    (fun st => st.session.log.head? = some ⟨.vfsRead 1 10, 0, .read 3 [65, 66, 67]⟩)
    (fun st e h => by
      obtain ⟨hcan, hend⟩ := MemfsState.of_canCall h.1
      refine ⟨hcan, fun h0 flags hcall => ?_, hend⟩
      have hflags := h.2
      rw [hcall] at hflags
      exact beq_iff_eq.mp hflags)
    (.init ⟨MemfsInode.wellFormed_new, rfl⟩) (s := ⟨.new, .empty⟩) (by decide +kernel)
  obtain ⟨b, hb, href⟩ := (memfs_refines hst).1
  exact ⟨st, b, hst, hp, hb, href⟩

/-! ## Unwritten bytes -/

/-- The byte the calls of a log have last written at an offset since the file was truncated;
zero if there is none. -/
def lastWritten : List Access → ℕ → UInt8
  | [], _ => 0
  | a :: log, i =>
    match a.call, a.reply with
    | .vfsOpen _ flags, _ => if flags &&& oTrunc ≠ 0 then 0 else lastWritten log i
    | .vfsWrite _ buf, .wrote _ =>
      if a.off ≤ i ∧ i < a.off + buf.length then buf.getD (i - a.off) 0 else lastWritten log i
    | _, _ => lastWritten log i

/-- Every byte that a read of the log has returned is the one last written at its offset. -/
def ReadsWritten (log : List Access) : Prop :=
  ∀ call off value bytes older, ⟨call, off, .read value bytes⟩ :: older <:+ log →
    ∀ i byte, bytes[i]? = some byte → byte = lastWritten older (off + i)

/-- A call that is no read adds nothing to be shown. -/
theorem ReadsWritten.cons {log : List Access} (h : ReadsWritten log) {a : Access}
    (ha : ∀ value bytes, a.reply = .read value bytes →
      ∀ i byte, bytes[i]? = some byte → byte = lastWritten log (a.off + i)) :
    ReadsWritten (a :: log) := by
  intro call off value bytes older hsuffix
  rcases suffix_cons_iff.mp hsuffix with heq | hsuffix
  · obtain ⟨rfl, rfl⟩ := cons.inj heq
    exact ha value bytes rfl
  · exact h call off value bytes older hsuffix

namespace MemfsState

/-- A write starts within the file. -/
def WritesWithin (st : MemfsState) (e : MemfsCall × Pool) : Prop :=
  ∀ h buf off, e.1 = .vfsWrite h buf → st.session.pos h = some off → off ≤ st.min.size

/-- The file holds what has been written, and that is what has been read. -/
structure Honest (st : MemfsState) : Prop where
  /-- the reads so far -/
  reads : ReadsWritten st.session.log
  /-- the file -/
  shows : st.min.Shows (lastWritten st.session.log)

/-- **Each call keeps this**, if it is no write beyond the end. -/
theorem Honest.step {st st' : MemfsState} (h : st.Honest) (hwithin : st.WritesWithin e)
    (hstep : st.step e = some st') : st'.Honest := by
  obtain ⟨call, pool⟩ := e
  cases call with
  | vfsOpen h0 flags =>
    cases hstep
    refine ⟨h.reads.cons nofun, ?_⟩
    change (st.min.opened flags).Shows fun i =>
      if flags &&& oTrunc ≠ 0 then 0 else lastWritten st.session.log i
    unfold MemfsInode.opened
    split
    · exact ⟨Nat.zero_le _, h.shows.word, nofun⟩
    · exact h.shows
  | vfsClose h0 =>
    cases hstep
    exact ⟨h.reads.cons nofun, h.shows⟩
  | vfsRead h0 len =>
    obtain ⟨off, -, hstep⟩ := bind_eq_some_iff.mp hstep
    obtain ⟨o, ho, rfl⟩ := map_eq_some_iff.mp hstep
    cases o with
    | none => exact ⟨h.reads.cons nofun, h.shows⟩
    | some bytes =>
      refine ⟨h.reads.cons fun value bytes' hreply i byte hbyte => ?_, h.shows⟩
      obtain ⟨-, rfl⟩ := Reply.read.inj hreply
      rw [h.shows.read ho, List.getElem?_map] at hbyte
      obtain ⟨j, hj, rfl⟩ := map_eq_some_iff.mp hbyte
      obtain ⟨hlt, rfl⟩ := List.getElem?_eq_some_iff.mp hj
      rw [List.getElem_range]
  | vfsWrite h0 buf =>
    obtain ⟨off, hoff, hstep⟩ := bind_eq_some_iff.mp hstep
    obtain ⟨o, ho, rfl⟩ := map_eq_some_iff.mp hstep
    cases o with
    | none => exact ⟨h.reads.cons nofun, h.shows⟩
    | some min =>
      exact ⟨h.reads.cons nofun, (h.shows.write (hwithin h0 buf off rfl hoff) ho).1⟩

end MemfsState

/-- **No byte is read that was not written**, in every run whose writes all start within the
file. -/
theorem reads_written {st : MemfsState}
    (h : ((memfsSystem (· = MemfsInode.new)).restrict MemfsState.WritesWithin).Reachable st) :
    ReadsWritten st.session.log := by
  have hst : st.Honest := by
    refine h.invariant (fun st hinit => ?_)
      fun st e st' hst hallowed hstep => hst.step hallowed.2 hstep
    obtain ⟨min, session⟩ := st
    obtain ⟨rfl, rfl⟩ := hinit
    refine ⟨fun _ _ _ _ _ hsuffix => ?_, ⟨le_rfl, by decide, nofun⟩⟩
    cases suffix_nil.mp hsuffix
  exact hst.reads

/-- After a truncation the file is written again from its beginning, and read. -/
theorem reads_written_again : ∃ st,
    ((memfsSystem (· = MemfsInode.new)).restrict MemfsState.WritesWithin).Reachable st ∧
      st.session.log.head? = some ⟨.vfsRead 2 10, 0, .read 1 [67]⟩ ∧
      ReadsWritten st.session.log := by
  obtain ⟨st, hst, hp⟩ := System.exists_reachable
    (S := (memfsSystem (· = MemfsInode.new)).restrict MemfsState.WritesWithin)
    (fun st e => st.canCall e ∧
      e.1.handle.elim true fun h => (st.session.pos h).all fun off => decide (off ≤ st.min.size))
    [(.vfsOpen 0 0, .ample), (.vfsWrite 0 [65, 66], .ample), (.vfsOpen 1 oTrunc, .ample),
      (.vfsWrite 1 [67], .ample), (.vfsOpen 2 0, .ample), (.vfsRead 2 10, .ample)]
    (fun st => st.session.log.head? = some ⟨.vfsRead 2 10, 0, .read 1 [67]⟩)
    (fun st e h => by
      refine ⟨(MemfsState.of_canCall h.1).1, fun h0 buf off hcall hoff => ?_⟩
      have hle := h.2
      rw [hcall] at hle
      change ((st.session.pos h0).all _) = true at hle
      rw [hoff] at hle
      exact of_decide_eq_true hle)
    (.init ⟨rfl, rfl⟩) (s := ⟨.new, .empty⟩) (by decide +kernel)
  exact ⟨st, hst, hp, reads_written hst⟩

/-- **Data from before the truncation is read.** One handle writes two bytes, another truncates
the file, the first writes a third byte: the first two are back. -/
theorem reads_stale : ∃ st, (memfsSystem (· = MemfsInode.new)).Reachable st ∧
    ¬ ReadsWritten st.session.log := by
  obtain ⟨st, hst, hp⟩ := System.exists_reachable (S := memfsSystem (· = MemfsInode.new))
    (fun st e => st.canCall e)
    [(.vfsOpen 0 0, .ample), (.vfsWrite 0 [65, 66], .ample), (.vfsOpen 1 oTrunc, .ample),
      (.vfsWrite 0 [67], .ample), (.vfsRead 1 3, .ample)]
    (fun st => st.session.log =
      [⟨.vfsRead 1 3, 0, .read 3 [65, 66, 67]⟩, ⟨.vfsWrite 0 [67], 2, .wrote 1⟩,
        ⟨.vfsOpen 1 oTrunc, 0, .done⟩, ⟨.vfsWrite 0 [65, 66], 0, .wrote 2⟩,
        ⟨.vfsOpen 0 0, 0, .done⟩])
    (fun st e h => (MemfsState.of_canCall h).1)
    (.init ⟨rfl, rfl⟩) (s := ⟨.new, .empty⟩) (by decide +kernel)
  refine ⟨st, hst, fun hreads => ?_⟩
  rw [hp] at hreads
  have hbyte := hreads _ 0 3 [65, 66, 67] _ (suffix_refl _) 0 65 rfl
  exact absurd hbyte (by decide)

end PokuOS
