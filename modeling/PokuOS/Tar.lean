import PokuOS.Memory
import PokuOS.Path

/-!
# Archives

`fs/tar.c`: the headers of a `ustar` archive on a block device. A file begins in the block after
its header, and the next header follows the last block of the file.

The code computes blocks, offsets and sizes as words. `archiveHeader` and `octal` are the same
with numbers of any size: what the archive says. `tarNextEntry_eq` is that both agree as long as
the archive is smaller than 4 GiB.
-/

namespace PokuOS

/-- `TAR_BLOCK_SIZE`. -/
def tarBlockSize : ℕ := 512

/-- `TAR_MAGIC`. -/
def tarMagic : List UInt8 := [117, 115, 116, 97, 114]

/-- `struct tar_entry`. -/
structure TarEntry where
  name : CStr
  type : UInt8
  offset : ℕ
  size : ℕ
  deriving DecidableEq

/-- So many bytes from an address on. -/
def bytesAt (m : Mem) (a n : ℕ) : List UInt8 := (List.range n).map fun i => m (a + i)

/-- An octal digit. -/
def isOctalDigit (c : UInt8) : Bool := 48 ≤ c && c ≤ 55

/-- The loop of `tar_octal`, which computes with words and stops at the first byte that is no
digit. -/
def tarOctalFrom (val : ℕ) : List UInt8 → ℕ
  | [] => val
  | c :: cs =>
    if isOctalDigit c then tarOctalFrom (val * 8 % 2 ^ 32 + (c.toNat - 48)) cs else val

/-- `tar_octal`. -/
def tarOctal (s : List UInt8) : ℕ := tarOctalFrom 0 s

/-- Whether a header is in this block: the magic is there, and a name. -/
def isHeader (disk : Mem) (blk : ℕ) : Bool :=
  bytesAt disk (blk * tarBlockSize + 257) 5 == tarMagic && disk (blk * tarBlockSize) != 0

/-- The field of a header with the size of the file. -/
def sizeField (disk : Mem) (blk : ℕ) : List UInt8 := bytesAt disk (blk * tarBlockSize + 124) 12

/-- `tar_next_entry` at a block: the entry, and the block after it. -/
def tarNextEntry (disk : Mem) (blk : ℕ) : Option (TarEntry × ℕ) :=
  if isHeader disk blk then
    let size := tarOctal (sizeField disk blk)
    let dataOff := (blk + 1) * tarBlockSize % 2 ^ 32
    let padding := (tarBlockSize - size % tarBlockSize) % tarBlockSize
    some
      ({ name := (bytesAt disk (blk * tarBlockSize) 99).takeWhile (· != 0)
         type := disk (blk * tarBlockSize + 156)
         offset := dataOff
         size := size },
        (dataOff / tarBlockSize + (size + padding) % 2 ^ 32 / tarBlockSize) % 2 ^ 32)
  else none

/-! ## What the archive says -/

/-- The number that octal digits stand for. -/
def octalFrom (val : ℕ) : List UInt8 → ℕ
  | [] => val
  | c :: cs => if isOctalDigit c then octalFrom (val * 8 + (c.toNat - 48)) cs else val

/-- The size of the file whose header is in this block. -/
def archiveSize (disk : Mem) (blk : ℕ) : ℕ := octalFrom 0 (sizeField disk blk)

/-- The first block after the file whose header is in this block. -/
def archiveNext (disk : Mem) (blk : ℕ) : ℕ := blk + 1 + (archiveSize disk blk + 511) / 512

/-- The block of a header of the archive, if there are so many. -/
def archiveHeader (disk : Mem) : ℕ → Option ℕ
  | 0 => if isHeader disk 0 then some 0 else none
  | n + 1 =>
    (archiveHeader disk n).bind fun blk =>
      if isHeader disk (archiveNext disk blk) then some (archiveNext disk blk) else none

/-- Where the file of a header begins on the device, and its size. -/
def archiveFile (disk : Mem) (n : ℕ) : Option (ℕ × ℕ) :=
  (archiveHeader disk n).map fun blk => ((blk + 1) * tarBlockSize, archiveSize disk blk)

/-- Every file of the archive lies below 4 GiB. -/
def Below4G (disk : Mem) : Prop :=
  ∀ n start size, archiveFile disk n = some (start, size) → start < 2 ^ 32 ∧ start + size ≤ 2 ^ 32

/-! ## The code computes it -/

/-- `tar_octal` computes the number modulo the size of a word. -/
theorem tarOctalFrom_eq (s : List UInt8) (val : ℕ) :
    tarOctalFrom (val % 2 ^ 32) s % 2 ^ 32 = octalFrom val s % 2 ^ 32 ∧
      (tarOctalFrom (val % 2 ^ 32) s < 2 ^ 32) := by
  induction s generalizing val with
  | nil => exact ⟨Nat.mod_mod _ _, Nat.mod_lt _ (Nat.two_pow_pos 32)⟩
  | cons c s ih =>
    unfold tarOctalFrom octalFrom
    split
    · rename_i hdigit
      have hle : c.toNat ≤ 55 := by
        have h := (Bool.and_eq_true _ _).mp hdigit
        exact UInt8.le_iff_toNat_le.mp (of_decide_eq_true h.2)
      have hval : val % 2 ^ 32 * 8 % 2 ^ 32 + (c.toNat - 48) =
          (val * 8 + (c.toNat - 48)) % 2 ^ 32 := by omega
      rw [hval]
      exact ih _
    · exact ⟨Nat.mod_mod _ _, Nat.mod_lt _ (Nat.two_pow_pos 32)⟩

theorem tarOctal_eq (s : List UInt8) : tarOctal s = octalFrom 0 s % 2 ^ 32 := by
  obtain ⟨hmod, hlt⟩ := tarOctalFrom_eq s 0
  rw [← hmod, Nat.mod_eq_of_lt hlt]
  rfl

variable {disk : Mem} {blk : ℕ}

/-- **The code reads the archive as it is**, where the file lies below 4 GiB. -/
theorem tarNextEntry_eq {e : TarEntry} {blk' : ℕ} (h : tarNextEntry disk blk = some (e, blk'))
    (hstart : (blk + 1) * tarBlockSize < 2 ^ 32)
    (hend : (blk + 1) * tarBlockSize + archiveSize disk blk ≤ 2 ^ 32) :
    e.offset = (blk + 1) * tarBlockSize ∧ e.size = archiveSize disk blk ∧
      blk' = archiveNext disk blk := by
  unfold tarNextEntry at h
  split at h
  · cases h
    have hsize : tarOctal (sizeField disk blk) = archiveSize disk blk := by
      rw [tarOctal_eq]
      refine Nat.mod_eq_of_lt ?_
      change archiveSize disk blk < 2 ^ 32
      unfold tarBlockSize at hend
      omega
    unfold archiveNext
    simp only [hsize]
    unfold tarBlockSize at hstart hend ⊢
    refine ⟨Nat.mod_eq_of_lt hstart, trivial, ?_⟩
    omega
  · cases h

theorem isHeader_of_tarNextEntry {r : TarEntry × ℕ} (h : tarNextEntry disk blk = some r) :
    isHeader disk blk = true := by
  unfold tarNextEntry at h
  split at h
  · assumption
  · cases h

/-- The size the code finds is a word. -/
theorem size_tarNextEntry {blk' : ℕ} {e : TarEntry} (h : tarNextEntry disk blk = some (e, blk')) :
    e.size < 2 ^ 32 := by
  unfold tarNextEntry at h
  split at h
  · obtain ⟨rfl, -⟩ := Prod.mk.inj (Option.some.inj h)
    exact (tarOctalFrom_eq (sizeField disk blk) 0).2
  · cases h

/-- Headers come in the order of their blocks. -/
theorem le_archiveHeader {n : ℕ} (h : archiveHeader disk n = some blk) : n ≤ blk := by
  induction n generalizing blk with
  | zero => exact Nat.zero_le _
  | succ n ih =>
    obtain ⟨blk0, hblk0, h⟩ := Option.bind_eq_some_iff.mp h
    split at h
    · cases h
      have := ih hblk0
      unfold archiveNext
      omega
    · cases h

end PokuOS
