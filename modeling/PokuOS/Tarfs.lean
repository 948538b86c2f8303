import PokuOS.PageCache
import PokuOS.Tar

/-!
# Files in an archive

`fs/tarfs.c`: what `tarfs_fill_super` finds in the archive, and reads through the page cache with
its read-ahead; and `ramfs_read` on an archive that lies in memory. Reads of the device succeed.

* `tarfsFill_spec` — in an archive below 4 GiB each inode is a file of the archive, and no two
  have one inode number.
* `tarfsLoop_spec` — **what the loop of `tarfs_read` has copied** is what stands in the archive.
* `tarfsLoop_complete_iff` — **when it copies everything.**
-/

namespace PokuOS

open Function List

/-! ## Mounting -/

/-- A `struct inode` of `tarfs` with its `struct tarfs_inode`. -/
structure TarInode where
  /-- which header of the archive it was made from -/
  nth : ℕ
  /-- `i_ino` -/
  ino : ℕ
  offset : ℕ
  size : ℕ
  deriving DecidableEq

/-- What the heap has for an entry of the archive. -/
inductive Fill where
  /-- `vfs_new_inode` fails -/
  | noInode
  /-- there is no `struct tarfs_inode` -/
  | noPrivate
  /-- `vfs_new_dentry` fails -/
  | noDentry
  /-- everything -/
  | linked
  deriving DecidableEq

/-- The loop of `tarfs_fill_super`, at a block and with `vfs_ino_next`; nothing if it is still
going after so many rounds. -/
def tarfsFill (disk : Mem) (fill : ℕ → Fill) : ℕ → ℕ → ℕ → ℕ → Option (List TarInode)
  | 0, _, _, _ => none
  | fuel + 1, n, blk, ino =>
    match tarNextEntry disk blk with
    | none => some []
    | some (e, blk') =>
      if e.type ≠ 48 ∧ e.type ≠ 0 then tarfsFill disk fill fuel (n + 1) blk' ino
      else
        match fill n with
        | .noInode | .noPrivate => some []
        | .noDentry => tarfsFill disk fill fuel (n + 1) blk' ((ino + 1) % 2 ^ 32)
        | .linked =>
          (tarfsFill disk fill fuel (n + 1) blk' ((ino + 1) % 2 ^ 32)).map
            (⟨n, ino, e.offset, e.size⟩ :: ·)

/-! ## Reading -/

/-- `TARFS_READAHEAD`. -/
def tarfsReadahead : ℕ := 4

/-- `tarfs_readpage` into a frame. -/
def tarfsReadpage (disk : Mem) (inode : TarInode) (pgoff : ℕ) (frame : Mem) : Option Mem :=
  let start := pgoff * 4096 % 2 ^ 32
  if inode.size ≤ start then none
  else
    let count := if inode.size < (start + 4096) % 2 ^ 32 then inode.size - start else 4096
    let nsec := (count + 511) / 512
    some (frame.blit 0 (nsec * 512) fun i => disk ((inode.offset + start) % 2 ^ 32 / 512 * 512 + i))

/-- `readpage` of a page of the inode. -/
def TarInode.readpage (disk : Mem) (inode : TarInode) (pgoff : ℕ) (pc : PageCache) :
    Option Mem × PageCache :=
  pc.readpage (tarfsReadpage disk inode pgoff) inode.ino pgoff

/-- The variables of `tarfs_read`. -/
structure TarRead where
  /-- the page cache -/
  pc : PageCache
  /-- `tfile->last_pgoff`, if there is a `tfile` -/
  lastPgoff : Option ℕ
  total : ℕ
  /-- the memory at `buf` -/
  buf : Mem

/-- The read-ahead after a page. -/
def readAhead (disk : Mem) (inode : TarInode) (pgoff pgoffEnd : ℕ) (pc : PageCache) : PageCache :=
  (range tarfsReadahead).foldl (fun pc i =>
    if pgoff + (i + 1) < pgoffEnd then (inode.readpage disk (pgoff + (i + 1)) pc).2 else pc) pc

namespace TarRead

/-- A page is copied to the buffer. -/
def copyPage (off len pgoff : ℕ) (page : Mem) (r : TarRead) : TarRead :=
  let pageOff := if pgoff = off / 4096 then off % 4096 else 0
  let pageLen := min (4096 - pageOff) (len - r.total)
  { r with
    buf := r.buf.blit r.total pageLen fun i => page (pageOff + i)
    total := r.total + pageLen }

/-- What the loop does after it: it reads ahead, if this page follows the one before. -/
def notePage (disk : Mem) (inode : TarInode) (pgoff pgoffEnd : ℕ) (r : TarRead) : TarRead :=
  match r.lastPgoff with
  | none => r
  | some last =>
    { r with
      pc := if pgoff = (last + 1) % 2 ^ 32 ∧ pgoff + 1 < pgoffEnd then
          readAhead disk inode pgoff pgoffEnd r.pc
        else r.pc
      lastPgoff := some pgoff }

end TarRead

/-- The loop of `tarfs_read`, over the last pages before `pgoffEnd`. -/
def tarfsLoop (disk : Mem) (inode : TarInode) (off len pgoffEnd : ℕ) : ℕ → TarRead → TarRead
  | 0, r => r
  | n + 1, r =>
    match inode.readpage disk (pgoffEnd - (n + 1)) r.pc with
    | (none, pc) => { r with pc := pc }
    | (some page, pc) =>
      tarfsLoop disk inode off len pgoffEnd n
        (({ r with pc := pc }.copyPage off len (pgoffEnd - (n + 1)) page).notePage disk inode
          (pgoffEnd - (n + 1)) pgoffEnd)

/-- How much `tarfs_read` and `ramfs_read` return at most. -/
def readLen (size off len : ℕ) : ℕ := min len (size - off)

/-- `tarfs_read` at an offset; it returns `total`. -/
def tarfsRead (disk : Mem) (inode : TarInode) (pc : PageCache) (lastPgoff : Option ℕ)
    (off len : ℕ) (buf : Mem) : TarRead :=
  let len := readLen inode.size off len
  let r : TarRead := { pc := pc, lastPgoff := lastPgoff, total := 0, buf := buf }
  if len = 0 then r
  else
    let pgoffEnd := (off + len + 4095) / 4096
    tarfsLoop disk inode off len pgoffEnd (pgoffEnd - off / 4096) r

/-- `ramfs_read` of a file of an archive that lies at `img`: the bytes it copies. -/
def ramfsRead (img : Mem) (offset size off len : ℕ) : List UInt8 :=
  bytesAt img (offset + off) (readLen size off len)

/-! ## The inodes are the files of the archive -/

/-- A file of an archive below 4 GiB is not far from its beginning. -/
theorem Below4G.lt {disk : Mem} (h : Below4G disk) {n : ℕ} {file : ℕ × ℕ}
    (hfile : archiveFile disk n = some file) : n < 2 ^ 23 := by
  obtain ⟨blk, hblk, rfl⟩ := Option.map_eq_some_iff.mp hfile
  have hle := le_archiveHeader hblk
  have hstart := (h n _ _ hfile).1
  unfold tarBlockSize at hstart
  omega

/-- What `tarfs_fill_super` has made from the headers from the `n`th on, with inode numbers from
`ino` on. -/
structure Filled (disk : Mem) (n ino : ℕ) (inodes : List TarInode) : Prop where
  /-- each inode is a file of the archive -/
  file : ∀ i ∈ inodes, archiveFile disk i.nth = some (i.offset, i.size)
  /-- an inode number for each entry, at most -/
  number : ∀ i ∈ inodes, ∃ k, n + k ≤ i.nth ∧ i.ino = (ino + k) % 2 ^ 32
  /-- no inode number is used twice -/
  nodup : (inodes.map TarInode.ino).Nodup

theorem Filled.skip {disk : Mem} {n ino j : ℕ} {inodes : List TarInode} (hj : j ≤ 1)
    (h : Filled disk (n + 1) ((ino + j) % 2 ^ 32) inodes) : Filled disk n ino inodes := by
  refine ⟨h.file, fun i hi => ?_, h.nodup⟩
  obtain ⟨k, hk, hino⟩ := h.number i hi
  exact ⟨j + k, by omega, by omega⟩

theorem Filled.link {disk : Mem} {n ino : ℕ} {inodes : List TarInode} (hbelow : Below4G disk)
    (h : Filled disk (n + 1) ((ino + 1) % 2 ^ 32) inodes) {offset size : ℕ} (hino : ino < 2 ^ 32)
    (hfile : archiveFile disk n = some (offset, size)) :
    Filled disk n ino (⟨n, ino, offset, size⟩ :: inodes) := by
  refine ⟨?_, ?_, ?_⟩
  · rintro i (_ | ⟨_, hi⟩)
    · exact hfile
    · exact h.file i hi
  · rintro i (_ | ⟨_, hi⟩)
    · exact ⟨0, le_rfl, (Nat.mod_eq_of_lt hino).symm⟩
    · exact (h.skip le_rfl).number i hi
  · rw [map_cons, nodup_cons]
    refine ⟨fun hmem => ?_, h.nodup⟩
    obtain ⟨i, hi, heq⟩ := mem_map.mp hmem
    obtain ⟨k, hk, hnumber⟩ := h.number i hi
    have hlt := hbelow.lt (h.file i hi)
    have heq : i.ino = ino := heq
    omega

/-- **The rule for the loop of `tarfs_fill_super`**: it ends, leaves an entry out, with an inode
number or without, or makes an inode for it. -/
theorem tarfsFill_rule {disk : Mem} {fill : ℕ → Fill} {P : ℕ → ℕ → ℕ → List TarInode → Prop}
    (hnil : ∀ n blk ino, P n blk ino [])
    (hskip : ∀ n blk ino e blk' inodes, tarNextEntry disk blk = some (e, blk') →
      P (n + 1) blk' ino inodes ∨ P (n + 1) blk' ((ino + 1) % 2 ^ 32) inodes →
      P n blk ino inodes)
    (hlink : ∀ n blk ino e blk' inodes, tarNextEntry disk blk = some (e, blk') →
      P (n + 1) blk' ((ino + 1) % 2 ^ 32) inodes →
      P n blk ino (⟨n, ino, e.offset, e.size⟩ :: inodes))
    (fuel : ℕ) : ∀ {n blk ino : ℕ} {inodes : List TarInode},
      tarfsFill disk fill fuel n blk ino = some inodes → P n blk ino inodes := by
  induction fuel with
  | zero => exact fun h => nomatch h
  | succ fuel ih =>
    intro n blk ino inodes h
    unfold tarfsFill at h
    cases hnext : tarNextEntry disk blk with
    | none =>
      rw [hnext] at h
      cases h
      exact hnil n blk ino
    | some r =>
      obtain ⟨e, blk'⟩ := r
      rw [hnext] at h
      dsimp only at h
      split at h
      · exact hskip n blk ino e blk' inodes hnext (.inl (ih h))
      · cases hfill : fill n with
        | noInode =>
          rw [hfill] at h
          cases h
          exact hnil n blk ino
        | noPrivate =>
          rw [hfill] at h
          cases h
          exact hnil n blk ino
        | noDentry =>
          rw [hfill] at h
          exact hskip n blk ino e blk' inodes hnext (.inr (ih h))
        | linked =>
          rw [hfill] at h
          obtain ⟨rest, hrest, rfl⟩ := Option.map_eq_some_iff.mp h
          exact hlink n blk ino e blk' rest hnext (ih hrest)

/-- What the code reads from a header of an archive below 4 GiB, where it takes the next to be. -/
theorem Below4G.next {disk : Mem} (hbelow : Below4G disk) {n blk : ℕ}
    (hat : isHeader disk blk = true → archiveHeader disk n = some blk) {e : TarEntry} {blk' : ℕ}
    (hnext : tarNextEntry disk blk = some (e, blk')) :
    archiveFile disk n = some (e.offset, e.size) ∧
      (isHeader disk blk' = true → archiveHeader disk (n + 1) = some blk') := by
  have hblk := hat (isHeader_of_tarNextEntry hnext)
  have hfile : archiveFile disk n = some ((blk + 1) * tarBlockSize, archiveSize disk blk) := by
    unfold archiveFile
    rw [hblk]
    rfl
  obtain ⟨hstart, hend⟩ := hbelow n _ _ hfile
  obtain ⟨hoffset, hsize, rfl⟩ := tarNextEntry_eq hnext hstart hend
  refine ⟨by rw [hfile, hoffset, hsize], fun hheader => ?_⟩
  unfold archiveHeader
  rw [hblk]
  exact if_pos hheader

/-- **Mounting an archive below 4 GiB**: each inode is a file of the archive, and no two have the
same number. -/
theorem tarfsFill_spec {disk : Mem} (hbelow : Below4G disk) {fill : ℕ → Fill} {fuel ino : ℕ}
    {inodes : List TarInode} (hino : ino < 2 ^ 32)
    (h : tarfsFill disk fill fuel 0 0 ino = some inodes) : Filled disk 0 ino inodes := by
  have hrule := tarfsFill_rule (P := fun n blk ino inodes =>
    (isHeader disk blk = true → archiveHeader disk n = some blk) → ino < 2 ^ 32 →
      Filled disk n ino inodes) ?_ ?_ ?_ fuel h
  · exact hrule (fun hheader => if_pos hheader) hino
  · exact fun n blk ino _ _ => ⟨nofun, nofun, nodup_nil⟩
  · intro n blk ino e blk' inodes hnext hrest hat hino
    obtain ⟨-, hat'⟩ := hbelow.next hat hnext
    rcases hrest with hrest | hrest
    · have hsame : (ino + 0) % 2 ^ 32 = ino := Nat.mod_eq_of_lt hino
      exact Filled.skip (Nat.zero_le 1) (hsame.symm ▸ hrest hat' hino)
    · exact (hrest hat' (Nat.mod_lt _ (Nat.two_pow_pos 32))).skip le_rfl
  · intro n blk ino e blk' inodes hnext hrest hat hino
    obtain ⟨hfile, hat'⟩ := hbelow.next hat hnext
    exact (hrest hat' (Nat.mod_lt _ (Nat.two_pow_pos 32))).link hbelow hino hfile

/-! ## Pages -/

namespace TarInode

variable {disk : Mem} {inode : TarInode} {pgoff : ℕ}

/-- The file begins at a block, and ends below 4 GiB. -/
structure Placed (inode : TarInode) : Prop where
  /-- the block -/
  aligned : inode.offset % 512 = 0
  /-- the end -/
  below : inode.offset + inode.size ≤ 2 ^ 32

/-- A page holds this page of the file, as far as the file goes. -/
def IsPage (disk : Mem) (inode : TarInode) (pgoff : ℕ) (page : Mem) : Prop :=
  ∀ k, k < 4096 → pgoff * 4096 + k < inode.size →
    page k = disk (inode.offset + pgoff * 4096 + k)

/-- A page of a file that ends below 4 GiB can be read. -/
theorem isSome_tarfsReadpage (hsize : inode.size < 2 ^ 32) (hpage : pgoff * 4096 < inode.size)
    (frame : Mem) : (tarfsReadpage disk inode pgoff frame).isSome := by
  unfold tarfsReadpage
  dsimp only
  rw [if_neg (by omega)]
  rfl

/-- **`tarfs_readpage` reads the page of the file.** -/
theorem Placed.tarfsReadpage (h : inode.Placed) (hpage : pgoff * 4096 < inode.size)
    {frame page : Mem} (hread : tarfsReadpage disk inode pgoff frame = some page) :
    inode.IsPage disk pgoff page := by
  have hbelow := h.below
  have haligned := h.aligned
  have hstart : pgoff * 4096 % 2 ^ 32 = pgoff * 4096 := Nat.mod_eq_of_lt (by omega)
  have hblock : (inode.offset + pgoff * 4096) % 2 ^ 32 / 512 * 512 =
      inode.offset + pgoff * 4096 := by omega
  unfold PokuOS.tarfsReadpage at hread
  dsimp only at hread
  rw [hstart, if_neg (by omega), hblock] at hread
  cases hread
  intro k hk hin
  unfold Mem.blit
  rw [if_pos, Nat.sub_zero]
  refine ⟨Nat.zero_le _, ?_⟩
  split <;> omega

end TarInode

/-! ## The cache holds pages of the files -/

/-- The inodes of a mounted archive. -/
structure Mounted (inodes : List TarInode) : Prop where
  /-- the files lie on the device -/
  placed : ∀ i ∈ inodes, i.Placed
  /-- their numbers are distinct -/
  nodup : (inodes.map TarInode.ino).Nodup

theorem Mounted.inj {inodes : List TarInode} (h : Mounted inodes) {i j : TarInode}
    (hi : i ∈ inodes) (hj : j ∈ inodes) (heq : i.ino = j.ino) : i = j :=
  inj_on_of_nodup_map h.nodup hi hj heq

/-- The cache keeps pages and frames apart, and holds pages of these files. -/
structure Caches (disk : Mem) (inodes : List TarInode) (pc : PageCache) : Prop where
  /-- no page and no frame twice -/
  distinct : pc.Distinct
  /-- the pages -/
  page : ∀ s ∈ pc.valid, ∃ i ∈ inodes, i.ino = s.ino ∧ i.IsPage disk s.pgoff (pc.frames s.phys)

section

variable {disk : Mem} {inodes : List TarInode} {inode : TarInode} {pgoff pgoffEnd : ℕ}
  {pc : PageCache}

/-- **A page that is read is the page of the file**, from the cache or from the device. -/
theorem Caches.readpage (h : Caches disk inodes pc) (hm : Mounted inodes) (hi : inode ∈ inodes)
    (hpage : pgoff * 4096 < inode.size) {o : Option Mem} {pc' : PageCache}
    (hr : inode.readpage disk pgoff pc = (o, pc')) :
    Caches disk inodes pc' ∧ ∀ page, o = some page → inode.IsPage disk pgoff page := by
  have hdistinct := h.distinct.readpage hr
  obtain ⟨s, hfind, rfl, rfl⟩ | ⟨slot, f, freeq, page, -, hslot, hfreeq, hread, rfl, rfl⟩ |
    ⟨-, rfl, rfl, -⟩ := PageCache.readpage_cases hr
  · refine ⟨h, fun page hsome => ?_⟩
    cases hsome
    obtain ⟨hs, hkey⟩ := PageCache.mem_of_find hfind
    obtain ⟨i, hi', hino, his⟩ := h.page s hs
    obtain ⟨hkino, rfl⟩ := Prod.mk.inj hkey
    exact hm.inj hi' hi (hino.trans hkino) ▸ his
  · have his := (hm.placed inode hi).tarfsReadpage hpage hread
    refine ⟨⟨hdistinct, fun s hs => ?_⟩, fun page hsome => Option.some.inj hsome ▸ his⟩
    rcases (PageCache.mem_valid_fill hslot).mp hs with rfl | hs
    · refine ⟨inode, hi, rfl, ?_⟩
      change inode.IsPage disk pgoff (update pc.frames f page f)
      rw [update_self]
      exact his
    · obtain ⟨i, hi', hino, his'⟩ := h.page s hs
      refine ⟨i, hi', hino, ?_⟩
      change i.IsPage disk s.pgoff (update pc.frames f page s.phys)
      rw [update_of_ne (h.distinct.phys_ne hfreeq hs)]
      exact his'
  · exact ⟨h, nofun⟩

variable {P : PageCache → Prop}

/-- What `readpage` keeps for each page before the end, the read-ahead keeps. -/
theorem readAhead_keeps
    (hstep : ∀ p pc, pgoff < p → p < pgoffEnd → P pc → P (inode.readpage disk p pc).2) (h : P pc) :
    P (readAhead disk inode pgoff pgoffEnd pc) := by
  unfold readAhead
  generalize range tarfsReadahead = l
  induction l generalizing pc with
  | nil => exact h
  | cons i l ih =>
    refine ih ?_
    dsimp only
    split
    · exact hstep _ pc (by omega) (by assumption) h
    · exact h

theorem notePage_keeps {r : TarRead}
    (hstep : ∀ p pc, pgoff < p → p < pgoffEnd → P pc → P (inode.readpage disk p pc).2)
    (h : P r.pc) : P (r.notePage disk inode pgoff pgoffEnd).pc := by
  unfold TarRead.notePage
  cases r.lastPgoff with
  | none => exact h
  | some last =>
    dsimp only
    split
    · exact readAhead_keeps hstep h
    · exact h

@[simp] theorem TarRead.total_notePage (r : TarRead) :
    (r.notePage disk inode pgoff pgoffEnd).total = r.total := by
  unfold TarRead.notePage
  split <;> rfl

@[simp] theorem TarRead.buf_notePage (r : TarRead) :
    (r.notePage disk inode pgoff pgoffEnd).buf = r.buf := by
  unfold TarRead.notePage
  split <;> rfl

end

/-! ## The loop -/

/-- What the loop has copied when it comes to a page. -/
structure Copied (disk : Mem) (inode : TarInode) (off len p : ℕ) (r : TarRead) : Prop where
  /-- the bytes before the page -/
  total : r.total = min len (p * 4096 - off)
  /-- as they are in the archive -/
  bytes : ∀ i, i < r.total → r.buf i = disk (inode.offset + off + i)

section

variable {disk : Mem} {inodes : List TarInode} {inode : TarInode} {off len p pgoffEnd : ℕ}
  {r : TarRead}

/-- The bytes that are copied from a page. -/
theorem total_copyPage (hp : off / 4096 ≤ p) (htotal : r.total = min len (p * 4096 - off))
    (page : Mem) : (r.copyPage off len p page).total = min len ((p + 1) * 4096 - off) := by
  change r.total + min (4096 - if p = off / 4096 then off % 4096 else 0) (len - r.total) = _
  rw [htotal]
  split <;> omega

/-- **A page is copied to its place.** -/
theorem Copied.copyPage (h : Copied disk inode off len p r) (hp : off / 4096 ≤ p)
    (hlen : off + len ≤ inode.size) {page : Mem} (hpage : inode.IsPage disk p page) :
    Copied disk inode off len (p + 1) (r.copyPage off len p page) := by
  refine ⟨total_copyPage hp h.total page, fun i hi => ?_⟩
  have htotal := h.total
  change i < r.total + min (4096 - if p = off / 4096 then off % 4096 else 0) (len - r.total) at hi
  change (if r.total ≤ i ∧ i < r.total +
      min (4096 - if p = off / 4096 then off % 4096 else 0) (len - r.total)
    then page ((if p = off / 4096 then off % 4096 else 0) + (i - r.total)) else r.buf i) = _
  by_cases hin : r.total ≤ i
  · rw [if_pos ⟨hin, hi⟩]
    have hplace : p * 4096 + (if p = off / 4096 then off % 4096 else 0) = off + r.total := by
      split at hi <;> rename_i heq
      · rw [if_pos heq]
        omega
      · rw [if_neg heq]
        omega
    rw [hpage _ (by split <;> omega) (by omega)]
    congr 1
    omega
  · rw [if_neg fun hboth => hin hboth.1]
    exact h.bytes i (by omega)

/-- **What the loop of `tarfs_read` has copied** when it ends, at the last page or at one that
cannot be read: the bytes of the file up to there. -/
theorem tarfsLoop_spec (hm : Mounted inodes) (hi : inode ∈ inodes)
    (hlen : off + len ≤ inode.size) (hend : pgoffEnd = (off + len + 4095) / 4096) (n : ℕ) :
    ∀ {r : TarRead}, n ≤ pgoffEnd - off / 4096 → Caches disk inodes r.pc →
      Copied disk inode off len (pgoffEnd - n) r →
      Caches disk inodes (tarfsLoop disk inode off len pgoffEnd n r).pc ∧
        ∃ p, Copied disk inode off len p (tarfsLoop disk inode off len pgoffEnd n r) := by
  induction n with
  | zero => exact fun _ hc hr => ⟨hc, _, hr⟩
  | succ n ih =>
    intro r hn hc hr
    have hbefore : ∀ p, p < pgoffEnd → p * 4096 < inode.size := by omega
    unfold tarfsLoop
    rcases hread : inode.readpage disk (pgoffEnd - (n + 1)) r.pc with ⟨o, pc⟩
    obtain ⟨hc', hpage⟩ := hc.readpage hm hi (hbefore _ (by omega)) hread
    cases o with
    | none => exact ⟨hc', _, hr.total, hr.bytes⟩
    | some page =>
      have hr' : Copied disk inode off len (pgoffEnd - (n + 1)) { r with pc := pc } :=
        ⟨hr.total, hr.bytes⟩
      have hcopied := hr'.copyPage (by omega) hlen (hpage page rfl)
      have hnext : pgoffEnd - (n + 1) + 1 = pgoffEnd - n := by omega
      rw [hnext] at hcopied
      refine ih (by omega) ?_ ⟨?_, ?_⟩
      · refine notePage_keeps (fun p pc' _ hp hc'' => ?_) hc'
        exact (hc''.readpage hm hi (hbefore p hp) rfl).1
      · rw [TarRead.total_notePage]
        exact hcopied.total
      · rw [TarRead.total_notePage, TarRead.buf_notePage]
        exact hcopied.bytes

/-- **When the loop copies everything**: when the pages that are not in the cache have a slot
each. The read-ahead takes only slots of pages the loop comes to. -/
theorem tarfsLoop_complete_iff (disk : Mem) (hsize : inode.size < 2 ^ 32) (hpos : 0 < len)
    (hlen : off + len ≤ inode.size) (hend : pgoffEnd = (off + len + 4095) / 4096) (n : ℕ) :
    ∀ {r : TarRead}, n ≤ pgoffEnd - off / 4096 →
      r.total = min len ((pgoffEnd - n) * 4096 - off) →
      r.pc.missing inode.ino (range' (pgoffEnd - n) n) ≤ r.pc.freeq.length →
      ((tarfsLoop disk inode off len pgoffEnd n r).total = len ↔
        r.pc.missing inode.ino (range' (pgoffEnd - n) n) ≤ r.pc.freeSlots) := by
  induction n with
  | zero =>
    intro r _ htotal _
    change r.total = len ↔ 0 ≤ _
    rw [htotal]
    omega
  | succ n ih =>
    intro r hn htotal hframes
    have hreads : ∀ p, p < pgoffEnd → ∀ m, (tarfsReadpage disk inode p m).isSome :=
      fun p hp => TarInode.isSome_tarfsReadpage hsize (by omega)
    have hpages : range' (pgoffEnd - (n + 1)) (n + 1) =
        (pgoffEnd - (n + 1)) :: range' (pgoffEnd - n) n := by
      rw [range'_succ]
      congr 2
      omega
    generalize hroom : (r.pc.missing inode.ino (range' (pgoffEnd - (n + 1)) (n + 1)) ≤
      r.pc.freeSlots) = Room
    have hnodup : (range' (pgoffEnd - (n + 1)) (n + 1)).Nodup := nodup_range'
    unfold tarfsLoop
    rcases hread : inode.readpage disk (pgoffEnd - (n + 1)) r.pc with ⟨o, pc⟩
    obtain ⟨hframes', hsame, hfound, hfull⟩ := PageCache.readpage_room hnodup
      (by rw [hpages]; exact mem_cons_self) (hreads _ (by omega)) hframes hread
    rw [hroom] at hsame hfull
    cases o with
    | none =>
      refine iff_of_false ?_ (hfull rfl)
      change ¬ r.total = len
      omega
    | some page =>
      -- what the rest of the round keeps: the pages still have as much room as they had
      let P (q : PageCache) : Prop :=
        q.missing inode.ino (range' (pgoffEnd - (n + 1)) (n + 1)) ≤ q.freeq.length ∧
        (q.missing inode.ino (range' (pgoffEnd - (n + 1)) (n + 1)) ≤ q.freeSlots ↔ Room) ∧
        q.find inode.ino (pgoffEnd - (n + 1)) ≠ none
      have hP : P pc := ⟨hframes', hsame, hfound rfl⟩
      have hkept : P (({ r with pc := pc }.copyPage off len (pgoffEnd - (n + 1)) page).notePage
          disk inode (pgoffEnd - (n + 1)) pgoffEnd).pc := by
        refine notePage_keeps (P := P) (fun p q hlt hp hq => ?_) hP
        have hmem : p ∈ range' (pgoffEnd - (n + 1)) (n + 1) :=
          mem_range'_1.mpr (by omega)
        obtain ⟨h1, h2, -, -⟩ := PageCache.readpage_room hnodup hmem (hreads p hp) hq.1 rfl
        exact ⟨h1, h2.trans hq.2.1, PageCache.find_readpage hq.2.2 rfl⟩
      obtain ⟨hframes'', hsame'', hfound''⟩ := hkept
      have hrest : ∀ q : PageCache, q.find inode.ino (pgoffEnd - (n + 1)) ≠ none →
          q.missing inode.ino (range' (pgoffEnd - (n + 1)) (n + 1)) =
            q.missing inode.ino (range' (pgoffEnd - n) n) := by
        intro q hq
        rw [hpages]
        exact countP_cons_of_neg (by rwa [Option.isNone_iff_eq_none])
      rw [hrest _ hfound''] at hframes'' hsame''
      refine (ih (by omega) ?_ hframes'').trans hsame''
      have htotal' : ({ r with pc := pc } : TarRead).total =
          min len ((pgoffEnd - (n + 1)) * 4096 - off) := htotal
      rw [TarRead.total_notePage, total_copyPage (by omega) htotal']
      congr 3
      omega

/-- **What `tarfs_read` returns**: bytes of the file from its position on, and the cache still
holds pages of the files. -/
theorem tarfsRead_spec (hm : Mounted inodes) (hi : inode ∈ inodes) {pc : PageCache}
    (hc : Caches disk inodes pc) (lastPgoff : Option ℕ) (off len : ℕ) (buf : Mem) :
    Caches disk inodes (tarfsRead disk inode pc lastPgoff off len buf).pc ∧
      (tarfsRead disk inode pc lastPgoff off len buf).total ≤ readLen inode.size off len ∧
      ∀ i, i < (tarfsRead disk inode pc lastPgoff off len buf).total →
        (tarfsRead disk inode pc lastPgoff off len buf).buf i =
          disk (inode.offset + off + i) := by
  unfold tarfsRead
  dsimp only
  split
  · exact ⟨hc, Nat.zero_le _, nofun⟩
  · rename_i hpos
    have hlen : off + readLen inode.size off len ≤ inode.size := by
      unfold readLen at hpos ⊢
      omega
    obtain ⟨hc', p, hp⟩ := tarfsLoop_spec (r := ⟨pc, lastPgoff, 0, buf⟩) hm hi hlen rfl _ le_rfl hc
      ⟨by dsimp only; omega, nofun⟩
    refine ⟨hc', ?_, hp.bytes⟩
    rw [hp.total]
    exact min_le_left ..

end

end PokuOS
