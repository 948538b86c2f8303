import PokuOS.Tar

/-!
# Archives, read from the start

`tar_next_entry` called again and again from block 0, as `ramfs_fill_super`, `tarfs_fill_super`
and `tar_find_entry` do.

`Archive disk blk files` is the layout of a `ustar` archive from a block on: for each file a
header and its padded contents, and a block of zeros at the end. Where it lies below 4 GiB the
code reads back the files that were written (`tarScan_archive`). On other disks the block number
wraps around at 4 GiB, and `tarNextEntry_increases_iff` says that this is the only way it can
fail to grow.
-/

namespace PokuOS

open List Option

/-! ## The loops -/

/-- The entries that repeated calls of `tar_next_entry` give, up to the one that fails; `none`
if so many calls do not reach it. -/
def tarScan (disk : Mem) : ℕ → ℕ → Option (List TarEntry)
  | 0, _ => none
  | fuel + 1, blk =>
    match tarNextEntry disk blk with
    | none => some []
    | some (e, blk') => (tarScan disk fuel blk').map (e :: ·)

variable {disk : Mem} {blk : ℕ}

/-- A file as it is written: what its header says, and its contents. -/
structure ArchivedFile where
  /-- the name -/
  name : CStr
  /-- the type -/
  type : UInt8
  /-- the contents -/
  data : List UInt8

/-- The last digits of a number in octal. -/
def octalDigits : ℕ → ℕ → List UInt8
  | 0, _ => []
  | k + 1, n => octalDigits k (n / 8) ++ [UInt8.ofNat (48 + n % 8)]

/-- The blocks of a file after its header. -/
def ArchivedFile.blocks (f : ArchivedFile) : ℕ := (f.data.length + 511) / 512

theorem ArchivedFile.length_le_blocks (f : ArchivedFile) : f.data.length ≤ f.blocks * 512 := by
  rw [ArchivedFile.blocks]
  omega

/-- The header of a file: magic, a name of 1 to 99 bytes, a type and a size of 11 digits. -/
structure ArchivedFile.Header (f : ArchivedFile) (disk : Mem) (blk : ℕ) : Prop where
  /-- the magic -/
  magic : bytesAt disk (blk * tarBlockSize + 257) 5 = tarMagic
  /-- a name has at least one byte, and does not fill its field -/
  length : 1 ≤ f.name.length ∧ f.name.length ≤ 99
  /-- a name is a string -/
  string : 0 ∉ f.name
  /-- the name, and zeros after it -/
  name : bytesAt disk (blk * tarBlockSize) 100 =
    f.name ++ List.replicate (100 - f.name.length) 0
  /-- the type -/
  type : disk (blk * tarBlockSize + 156) = f.type
  /-- the size, and what ends it -/
  size : ∃ c, isOctalDigit c = false ∧
    sizeField disk blk = octalDigits 11 f.data.length ++ [c]

/-- **An archive**, from a block on. -/
inductive Archive (disk : Mem) : ℕ → List ArchivedFile → Prop where
  /-- the block of zeros at the end -/
  | nil {blk : ℕ} : (∀ i < tarBlockSize, disk (blk * tarBlockSize + i) = 0) → Archive disk blk []
  /-- a header, the contents from the next block on, and the rest of the archive -/
  | cons {blk : ℕ} {f : ArchivedFile} {fs : List ArchivedFile} : f.Header disk blk →
      bytesAt disk ((blk + 1) * tarBlockSize) f.data.length = f.data →
      Archive disk (blk + 1 + f.blocks) fs → Archive disk blk (f :: fs)

/-- The blocks of an archive. -/
def archiveBlocks (fs : List ArchivedFile) : ℕ := (fs.map fun f => 1 + f.blocks).sum + 1

/-- The entries of the files of an archive that begins at this block. -/
def archiveEntries : ℕ → List ArchivedFile → List TarEntry
  | _, [] => []
  | blk, f :: fs =>
    { name := f.name, type := f.type, offset := (blk + 1) * tarBlockSize, size := f.data.length } ::
      archiveEntries (blk + 1 + f.blocks) fs

/-! ## Reading it back -/

theorem octalFrom_octalDigits (k n val : ℕ) (rest : List UInt8) :
    octalFrom val (octalDigits k n ++ rest) = octalFrom (val * 8 ^ k + n % 8 ^ k) rest := by
  induction k generalizing n rest with
  | zero => simp [octalDigits, Nat.mod_one]
  | succ k ih =>
    have hlt : n % 8 < 8 := Nat.mod_lt _ (by decide)
    have hnat : (UInt8.ofNat (48 + n % 8)).toNat = 48 + n % 8 := by
      rw [UInt8.toNat_ofNat']
      omega
    have hdigit : isOctalDigit (UInt8.ofNat (48 + n % 8)) = true := by
      rw [isOctalDigit, Bool.and_eq_true, decide_eq_true_iff, decide_eq_true_iff,
        UInt8.le_iff_toNat_le, UInt8.le_iff_toNat_le, hnat]
      refine ⟨Nat.le_add_right 48 _, ?_⟩
      change 48 + n % 8 ≤ 55
      omega
    have hval : (val * 8 ^ k + n / 8 % 8 ^ k) * 8 + n % 8 =
        val * 8 ^ (k + 1) + n % 8 ^ (k + 1) := by
      rw [Nat.pow_succ', Nat.mod_mul, Nat.mul_left_comm]
      omega
    rw [octalDigits, append_assoc, ih, singleton_append, octalFrom, if_pos hdigit, hnat,
      Nat.add_sub_cancel_left, hval]

variable {f : ArchivedFile}

theorem ArchivedFile.Header.archiveSize (h : f.Header disk blk) (hlt : f.data.length < 2 ^ 32) :
    PokuOS.archiveSize disk blk = f.data.length := by
  obtain ⟨c, hc, hsize⟩ := h.size
  rw [PokuOS.archiveSize, hsize, octalFrom_octalDigits, octalFrom, hc]
  simp only [Bool.false_eq_true, if_false]
  omega

theorem ArchivedFile.Header.name_eq (h : f.Header disk blk) :
    (bytesAt disk (blk * tarBlockSize) 99).takeWhile (· != 0) = f.name := by
  have hlen := h.length
  have hfield : bytesAt disk (blk * tarBlockSize) 99 =
      f.name ++ replicate (99 - f.name.length) 0 := by
    have htake := congrArg (take 99) h.name
    rw [take_append, take_of_length_le hlen.2, take_replicate] at htake
    have hmin : min (99 - f.name.length) (100 - f.name.length) = 99 - f.name.length := by omega
    rw [hmin] at htake
    rw [← htake, bytesAt, bytesAt, ← map_take, take_range]
    rfl
  have hname : ∀ c ∈ f.name, (c != 0) = true := by
    intro c hc
    exact bne_iff_ne.mpr fun hzero => h.string (hzero ▸ hc)
  rw [hfield, takeWhile_append_of_pos hname, takeWhile_replicate]
  exact append_nil _

/-- **A header is read as it was written.** -/
theorem ArchivedFile.Header.tarNextEntry (h : f.Header disk blk)
    (hend : (blk + 1) * tarBlockSize + f.data.length < 2 ^ 32) :
    PokuOS.tarNextEntry disk blk = some
      ({ name := f.name, type := f.type, offset := (blk + 1) * tarBlockSize,
         size := f.data.length }, blk + 1 + f.blocks) := by
  have hsize := h.archiveSize (by omega)
  have hfirst : disk (blk * tarBlockSize) ≠ 0 := by
    have hlen := h.length
    cases hname : f.name with
    | nil => simp [hname] at hlen
    | cons c cs =>
      have hc : disk (blk * tarBlockSize) = c := by
        have hhead := congrArg (fun l => l[0]?) h.name
        simpa [bytesAt, hname] using hhead
      rw [hc]
      exact fun hzero => h.string (by rw [hname, hzero]; exact mem_cons_self)
  have hheader : isHeader disk blk = true := by
    rw [isHeader, h.magic, Bool.and_eq_true]
    exact ⟨beq_self_eq_true _, bne_iff_ne.mpr hfirst⟩
  obtain ⟨r, hr⟩ : ∃ r, PokuOS.tarNextEntry disk blk = some r := ⟨_, if_pos hheader⟩
  obtain ⟨e, blk'⟩ := r
  obtain ⟨hoffset, hsize', hnext⟩ := tarNextEntry_eq hr (by omega) (by omega)
  have hname : e.name = f.name ∧ e.type = f.type := by
    rw [PokuOS.tarNextEntry, if_pos hheader] at hr
    obtain ⟨rfl, -⟩ := Prod.mk.inj (some.inj hr)
    exact ⟨h.name_eq, h.type⟩
  rw [hr, hnext, archiveNext, hsize]
  congr 2
  cases e
  simp_all

/-- An archive ends where there is no header. -/
theorem tarNextEntry_zeros (h : ∀ i < tarBlockSize, disk (blk * tarBlockSize + i) = 0) :
    tarNextEntry disk blk = none := by
  refine if_neg fun hheader => ?_
  have hfirst := bne_iff_ne.mp ((Bool.and_eq_true _ _).mp hheader).2
  have hzero := h 0 (by decide)
  rw [Nat.add_zero] at hzero
  exact hfirst hzero

theorem archiveBlocks_cons (f : ArchivedFile) (fs : List ArchivedFile) :
    archiveBlocks (f :: fs) = 1 + f.blocks + archiveBlocks fs := by
  rw [archiveBlocks, archiveBlocks, map_cons, sum_cons, Nat.add_assoc]

variable {fs : List ArchivedFile}

/-- The calls from a block of an archive on. -/
theorem Archive.tarScan (h : Archive disk blk fs)
    (hend : (blk + archiveBlocks fs) * tarBlockSize < 2 ^ 32) :
    PokuOS.tarScan disk (fs.length + 1) blk = some (archiveEntries blk fs) := by
  induction h with
  | nil hzeros => rw [PokuOS.tarScan, tarNextEntry_zeros hzeros, archiveEntries]
  | cons hheader hdata _ ih =>
    rename_i blk f fs _
    rw [archiveBlocks_cons, ← Nat.add_assoc, ← Nat.add_assoc] at hend
    have hrest := ih hend
    have hin := f.length_le_blocks
    have hfile : (blk + 1) * tarBlockSize + f.data.length < 2 ^ 32 := by
      refine lt_of_le_of_lt ?_ hend
      rw [tarBlockSize]
      omega
    rw [length_cons, PokuOS.tarScan, hheader.tarNextEntry hfile, archiveEntries]
    simp only [hrest, map_some]

/-- The entries of an archive have the data of its files. -/
theorem Archive.entries (h : Archive disk blk fs) :
    List.Forall₂ (fun e f => e.name = f.name ∧ e.type = f.type ∧ e.size = f.data.length ∧
      bytesAt disk e.offset e.size = f.data) (archiveEntries blk fs) fs := by
  induction h with
  | nil _ => exact .nil
  | cons _ hdata _ ih => exact .cons ⟨rfl, rfl, rfl, hdata⟩ ih

/-- **An archive is read back.** The calls of `tar_next_entry` from block 0 on give one entry for
each file of an archive below 4 GiB, in order, with the name, the type and the size of the file
and the offset of its first byte; the call after the last one fails. -/
theorem tarScan_archive {disk : Mem} {fs : List ArchivedFile} (h : Archive disk 0 fs)
    (hend : archiveBlocks fs * tarBlockSize < 2 ^ 32) :
    tarScan disk (fs.length + 1) 0 = some (archiveEntries 0 fs) ∧
      List.Forall₂ (fun e f => e.name = f.name ∧ e.type = f.type ∧ e.size = f.data.length ∧
        bytesAt disk e.offset e.size = f.data) (archiveEntries 0 fs) fs := by
  rw [← Nat.zero_add (archiveBlocks fs)] at hend
  exact ⟨h.tarScan hend, h.entries⟩

/-- A file of two blocks. -/
def readmeFile : ArchivedFile := ⟨cstr "readme", 48, List.replicate 513 0x61⟩

/-- A file as `tar` stores it when it is run in the directory of the file. -/
def motdFile : ArchivedFile := ⟨cstr "./motd", 48, [0x68, 0x69]⟩

/-- A byte of the header of a file. -/
def ArchivedFile.headerByte (f : ArchivedFile) (i : ℕ) : UInt8 :=
  if i < 100 then f.name.getD i 0
  else if 124 ≤ i ∧ i < 135 then (octalDigits 11 f.data.length).getD (i - 124) 0
  else if i = 156 then f.type
  else if 257 ≤ i then tarMagic.getD (i - 257) 0
  else 0

/-- An archive with these files. -/
def motdDisk : Mem := fun a =>
  if a < 512 then readmeFile.headerByte a
  else if a < 1536 then if a < 1025 then 0x61 else 0
  else if a < 2048 then motdFile.headerByte (a - 1536)
  else motdFile.data.getD (a - 2048) 0

theorem archive_motdDisk : Archive motdDisk 0 [readmeFile, motdFile] := by
  refine .cons ⟨?_, ?_, ?_, ?_, ?_, 0, ?_, ?_⟩ ?_ (.cons ⟨?_, ?_, ?_, ?_, ?_, 0, ?_, ?_⟩ ?_
      (.nil ?_))
  all_goals decide +kernel

theorem tarScan_archive_motd : tarScan motdDisk 3 0 =
    some [⟨cstr "readme", 48, 512, 513⟩, ⟨cstr "./motd", 48, 2048, 2⟩] := by
  have hentries : archiveEntries 0 [readmeFile, motdFile] =
      [⟨cstr "readme", 48, 512, 513⟩, ⟨cstr "./motd", 48, 2048, 2⟩] := by decide +kernel
  rw [← hentries]
  exact (tarScan_archive archive_motdDisk (by decide +kernel)).1

/-! ## The search -/

/-- The block in which a call of `tar_next_entry` looks, after so many that succeeded. -/
def tarBlock (disk : Mem) : ℕ → Option ℕ
  | 0 => some 0
  | n + 1 => (tarBlock disk n).bind fun blk => (tarNextEntry disk blk).map Prod.snd

/-- The blocks from one header to the next, by the word in the size field. -/
def headerStep (disk : Mem) (blk : ℕ) : ℕ :=
  1 + (archiveSize disk blk % 2 ^ 32 + 511) / 512 % 2 ^ 23

/-- The block of a header, counted by these steps and without a bound. -/
def headerBlock (disk : Mem) : ℕ → Option ℕ
  | 0 => if isHeader disk 0 then some 0 else none
  | n + 1 =>
    (headerBlock disk n).bind fun blk =>
      if isHeader disk (blk + headerStep disk blk) then some (blk + headerStep disk blk) else none

/-- The next block is the next header, unless the contents begin at 4 GiB or beyond. -/
theorem tarNextEntry_snd {blk' : ℕ} {e : TarEntry} (h : tarNextEntry disk blk = some (e, blk')) :
    blk' = (blk + 1) % 2 ^ 23 + (headerStep disk blk - 1) := by
  unfold tarNextEntry at h
  split at h
  · obtain ⟨-, rfl⟩ := Prod.mk.inj (some.inj h)
    rw [tarOctal_eq, headerStep, archiveSize, tarBlockSize]
    generalize octalFrom 0 (sizeField disk blk) % 2 ^ 32 = size
    omega
  · cases h

/-- **A call moves on exactly below 4 GiB.** -/
theorem lt_tarNextEntry_iff {blk' : ℕ} {e : TarEntry} (h : tarNextEntry disk blk = some (e, blk')) :
    blk < blk' ↔ blk + 1 < 2 ^ 23 := by
  rw [tarNextEntry_snd h, headerStep]
  omega

/-- Every header is below 4 GiB with the first byte of its contents. -/
def HeadersBelow (disk : Mem) : Prop := ∀ n blk, headerBlock disk n = some blk → blk + 1 < 2 ^ 23

/-- Below 4 GiB the calls go from header to header. -/
theorem headerBlock_iff {n : ℕ}
    (hbelow : ∀ m < n, ∀ blk, headerBlock disk m = some blk → blk + 1 < 2 ^ 23) (blk : ℕ) :
    headerBlock disk n = some blk ↔ tarBlock disk n = some blk ∧ isHeader disk blk = true := by
  induction n generalizing blk with
  | zero =>
    rw [headerBlock, tarBlock]
    by_cases hheader : isHeader disk 0 = true
    · rw [if_pos hheader]
      exact ⟨fun h => ⟨h, some.inj h ▸ hheader⟩, And.left⟩
    · rw [if_neg hheader]
      exact ⟨nofun, fun h => absurd (some.inj h.1 ▸ h.2) hheader⟩
  | succ n ih =>
    have hprev := ih fun m hm => hbelow m (hm.trans n.lt_succ_self)
    -- from a header below 4 GiB the next block is one step on
    have hnext : ∀ blk0, headerBlock disk n = some blk0 → ∃ e,
        tarNextEntry disk blk0 = some (e, blk0 + headerStep disk blk0) := by
      intro blk0 hblk0
      have hlt := hbelow n n.lt_succ_self blk0 hblk0
      obtain ⟨⟨e, blk1⟩, he⟩ : ∃ r, tarNextEntry disk blk0 = some r :=
        ⟨_, if_pos ((hprev blk0).mp hblk0).2⟩
      have hsnd := tarNextEntry_snd he
      rw [headerStep, Nat.add_sub_cancel_left, Nat.mod_eq_of_lt hlt] at hsnd
      refine ⟨e, ?_⟩
      rw [he, hsnd, headerStep, ← Nat.add_assoc]
    rw [headerBlock, tarBlock]
    constructor
    · intro h
      obtain ⟨blk0, hblk0, h⟩ := bind_eq_some_iff.mp h
      obtain ⟨e, he⟩ := hnext blk0 hblk0
      split at h
      · rename_i hheader
        cases h
        rw [((hprev blk0).mp hblk0).1, bind_some, he]
        exact ⟨rfl, hheader⟩
      · cases h
    · rintro ⟨h, hheader⟩
      obtain ⟨blk0, hblk0, h⟩ := bind_eq_some_iff.mp h
      obtain ⟨⟨e, _⟩, he, rfl⟩ := map_eq_some_iff.mp h
      have hfound := (hprev blk0).mpr ⟨hblk0, isHeader_of_tarNextEntry he⟩
      obtain ⟨e', he'⟩ := hnext blk0 hfound
      obtain ⟨-, rfl⟩ := Prod.mk.inj (some.inj (he.symm.trans he'))
      rw [hfound, bind_some, if_pos hheader]

/-- Calls that move on below a bound end. -/
theorem tarScan_ends (hmoves : ∀ n blk e blk', tarBlock disk n = some blk →
      tarNextEntry disk blk = some (e, blk') → blk < blk') (fuel : ℕ) :
    ∀ {n blk : ℕ}, tarBlock disk n = some blk → 2 ^ 24 ≤ blk + fuel →
      (tarScan disk (fuel + 1) blk).isSome := by
  induction fuel with
  | zero =>
    intro n blk hblk hle
    rw [tarScan]
    cases hnext : tarNextEntry disk blk with
    | none => rfl
    | some next =>
      have hlt := (lt_tarNextEntry_iff hnext).mp (hmoves n blk _ _ hblk hnext)
      omega
  | succ fuel ih =>
    intro n blk hblk hle
    rw [tarScan]
    cases hnext : tarNextEntry disk blk with
    | none => rfl
    | some next =>
      have hlt := hmoves n blk next.1 next.2 hblk hnext
      have hrest : tarBlock disk (n + 1) = some next.2 := by
        rw [tarBlock, hblk, bind_some, hnext, map_some]
      simpa using ih hrest (by omega)

/-- **When scanning moves on.** Whatever is on the disk, every call of `tar_next_entry` in a scan
from block 0 that succeeds moves on exactly if every header lies below 4 GiB with the first byte
of its contents; and then the scan ends. -/
theorem tarNextEntry_increases_iff (disk : Mem) :
    ((∀ n blk e blk', tarBlock disk n = some blk → tarNextEntry disk blk = some (e, blk') →
        blk < blk') ↔ HeadersBelow disk) ∧
      (HeadersBelow disk → ∃ fuel, (tarScan disk fuel 0).isSome) := by
  have hiff : (∀ n blk e blk', tarBlock disk n = some blk →
      tarNextEntry disk blk = some (e, blk') → blk < blk') ↔ HeadersBelow disk := by
    constructor
    · intro hmoves n
      induction n using Nat.strong_induction_on with
      | h n ih =>
        intro blk hblk
        obtain ⟨hblk, hheader⟩ := (headerBlock_iff ih blk).mp hblk
        obtain ⟨⟨e, blk'⟩, he⟩ : ∃ r, tarNextEntry disk blk = some r := ⟨_, if_pos hheader⟩
        exact (lt_tarNextEntry_iff he).mp (hmoves n blk e blk' hblk he)
    · intro hbelow n blk e blk' hblk he
      have hfound := (headerBlock_iff (fun m _ => hbelow m) blk).mpr
        ⟨hblk, isHeader_of_tarNextEntry he⟩
      exact (lt_tarNextEntry_iff he).mpr (hbelow n blk hfound)
  refine ⟨hiff, fun hbelow => ⟨2 ^ 24 + 1, ?_⟩⟩
  exact tarScan_ends (hiff.mpr hbelow) (2 ^ 24) (n := 0) rfl (Nat.le_add_left _ _)

/-- Two headers: the file of the first ends with the last block below 4 GiB, and the second is in
that block. -/
def loopDisk : Mem := fun a =>
  let i := a % 512
  if a / 512 = 0 ∨ a / 512 = 2 ^ 23 - 1 then
    if i = 0 then 0x61
    else if 124 ≤ i ∧ i < 135 ∧ a < 512 then (octalDigits 11 (2 ^ 32 - 1024)).getD (i - 124) 0
    else if 257 ≤ i then tarMagic.getD (i - 257) 0
    else 0
  else 0

/-- **A scan that goes in a circle**: the second header leads back to the first. -/
theorem tarNextEntry_circle :
    (tarNextEntry loopDisk 0).map Prod.snd = some (2 ^ 23 - 1) ∧
      (tarNextEntry loopDisk (2 ^ 23 - 1)).map Prod.snd = some 0 := by
  decide +kernel

end PokuOS
