import PokuOS.Memfs
import PokuOS.Tarfs
import PokuOS.Transition

/-!
# Histories of reads

An archive is mounted, and its files are opened and read through the page cache in any order.
Meanwhile other parts of the kernel take frames and give them back.

* `tarfs_reads_archive` — **a read returns bytes of the archive**, if that is smaller than 4 GiB;
  `tarfs_reads_wrapped` is what happens in a larger one.
* `tarfs_read_complete_iff` — **a read is complete** exactly when the cache has a slot for each
  page that it does not hold; `tarfs_read_short` is a read of a file when the cache is full.
-/

namespace PokuOS

open Function List Option

/-- A `struct file` of `tarfs`. -/
structure TarFile where
  /-- the inode of `f_dentry` -/
  inode : TarInode
  fPos : ℕ
  /-- the `last_pgoff` at `f_private` -/
  lastPgoff : Option ℕ

/-- The mounted archive, the page cache and the open files. -/
structure TarState where
  /-- the inodes `tarfs_fill_super` has made -/
  inodes : List TarInode
  /-- the page cache -/
  pc : PageCache
  /-- the open files -/
  files : ℕ → Option TarFile

/-- What happens to the files. -/
inductive TarEvent where
  /-- `vfs_open` of an inode -/
  | vfsOpen (h : ℕ) (inode : TarInode)
  | vfsClose (h : ℕ)
  /-- `vfs_read` of so many bytes into a buffer -/
  | vfsRead (h len : ℕ) (buf : Mem)
  /-- other parts of the kernel use frames, and leave these free -/
  | useFrames (freeq : List ℕ) (frames : ℕ → Mem)

namespace TarState

variable (disk : Mem)

/-- The effect of an event. -/
def step (st : TarState) : TarEvent → Option TarState
  | .vfsOpen h inode => some
    { st with files := update st.files h (some ⟨inode, 0, some 0⟩) }
  | .vfsClose h => some { st with files := update st.files h none }
  | .vfsRead h len buf => (st.files h).map fun file =>
    let r := tarfsRead disk file.inode st.pc file.lastPgoff file.fPos len buf
    { st with
      pc := r.pc
      files := update st.files h
        (some ⟨file.inode, advance file.fPos r.total, r.lastPgoff⟩) }
  | .useFrames freeq frames => some
    { st with pc := { st.pc with freeq := freeq, frames := frames } }

/-- Files of the archive are opened, and the frames of the cache are left alone. -/
def Allowed (st : TarState) : TarEvent → Prop
  | .vfsOpen _ inode => inode ∈ st.inodes
  | .vfsClose _ => True
  | .vfsRead _ len _ => len < 2 ^ 32
  | .useFrames freeq frames =>
    (freeq ++ st.pc.valid.map CacheSlot.phys).Nodup ∧
      ∀ s ∈ st.pc.valid, frames s.phys = st.pc.frames s.phys

/-- The archive has been mounted, and nothing has been read. -/
def Fresh (st : TarState) : Prop :=
  ∃ fill fuel ino freeq frames, ino < 2 ^ 32 ∧ freeq.Nodup ∧
    tarfsFill disk fill fuel 0 0 ino = some st.inodes ∧ st.pc = .empty freeq frames ∧
    st.files = fun _ => none

end TarState

/-- The histories of reads of an archive. -/
def tarSystem (disk : Mem) : System TarState TarEvent where
  init := TarState.Fresh disk
  allowed := TarState.Allowed
  step := TarState.step disk

/-- **Reads return bytes of the archive**, as `ramfs_read` does, and the cache keeps its pages
and frames apart. -/
structure TarState.ReadsArchive (disk : Mem) (st : TarState) : Prop where
  /-- no two slots have one page -/
  pages : (st.pc.valid.map CacheSlot.key).Nodup
  /-- no two slots have one frame -/
  frames : (st.pc.valid.map CacheSlot.phys).Nodup
  /-- the open files are files of the archive -/
  files : ∀ h file, st.files h = some file → file.inode ∈ st.inodes
  /-- what a read returns -/
  read : ∀ inode ∈ st.inodes, ∀ lastPgoff off len buf r, off < 2 ^ 64 →
    r = tarfsRead disk inode st.pc lastPgoff off len buf →
    ∃ start size, archiveFile disk inode.nth = some (start, size) ∧
      r.total ≤ min len (size - off) ∧ advance off r.total = off + r.total ∧
      (∀ i, i < r.total → r.buf i = disk (start + off + i)) ∧
      bytesAt r.buf 0 r.total = (ramfsRead disk inode.offset inode.size off len).take r.total

/-! ## Bytes of the archive -/

/-- What holds in every history of an archive below 4 GiB. -/
structure TarState.Good (disk : Mem) (st : TarState) : Prop where
  /-- the inodes are files of the archive -/
  file : ∀ i ∈ st.inodes, archiveFile disk i.nth = some (i.offset, i.size)
  /-- with numbers of their own -/
  mounted : Mounted st.inodes
  /-- the cache holds pages of them -/
  caches : Caches disk st.inodes st.pc
  /-- files of the archive are open -/
  files : ∀ h file, st.files h = some file → file.inode ∈ st.inodes

variable {st : TarState}

theorem TarState.good_of_fresh {disk : Mem} (hbelow : Below4G disk) (h : st.Fresh disk) :
    st.Good disk := by
  obtain ⟨fill, fuel, ino, freeq, frames, hino, hnodup, hfill, hpc, hfiles⟩ := h
  have hfilled : Filled disk 0 ino st.inodes :=
    tarfsFill_spec hbelow hino hfill
  have hvalid : st.pc.valid = [] := by
    rw [hpc]
    exact filterMap_replicate_of_none rfl
  refine ⟨hfilled.file, ⟨fun i hi => ?_, hfilled.nodup⟩, ⟨⟨?_, ?_⟩, ?_⟩, ?_⟩
  · have hfile := hfilled.file i hi
    obtain ⟨blk, -, heq⟩ := map_eq_some_iff.mp hfile
    obtain ⟨hoffset, -⟩ := Prod.mk.inj heq
    refine ⟨?_, (hbelow _ _ _ hfile).2⟩
    rw [← hoffset]
    exact Nat.mul_mod_left ..
  · rw [hvalid]
    exact nodup_nil
  · rw [hvalid, hpc, map_nil, append_nil]
    exact hnodup
  · rw [hvalid]
    exact nofun
  · rw [hfiles]
    exact nofun

/-- What holds of every open file still does when one is opened, closed or moved. -/
theorem forall_update_files {files : ℕ → Option TarFile} {P : TarFile → Prop}
    (hfiles : ∀ h file, files h = some file → P file) {h : ℕ} {o : Option TarFile}
    (ho : ∀ file, o = some file → P file) :
    ∀ h' file, update files h o h' = some file → P file := by
  intro h' file hfile
  by_cases heq : h' = h
  · subst heq
    rw [update_self] at hfile
    exact ho file hfile
  · rw [update_of_ne heq] at hfile
    exact hfiles h' file hfile

/-- **Each event keeps it.** -/
theorem TarState.Good.step {disk : Mem} {st' : TarState} (h : st.Good disk) {e : TarEvent}
    (hallowed : st.Allowed e) (hstep : st.step disk e = some st') : st'.Good disk := by
  cases e with
  | vfsOpen hd inode =>
    cases hstep
    refine ⟨h.file, h.mounted, h.caches, forall_update_files h.files fun file hfile => ?_⟩
    cases hfile
    exact hallowed
  | vfsClose hd =>
    cases hstep
    exact ⟨h.file, h.mounted, h.caches, forall_update_files h.files nofun⟩
  | vfsRead hd len buf =>
    obtain ⟨file, hfile, rfl⟩ := map_eq_some_iff.mp hstep
    have hi := h.files hd file hfile
    refine ⟨h.file, h.mounted, ?_, forall_update_files h.files fun file' hfile' => ?_⟩
    · exact (tarfsRead_spec h.mounted hi h.caches file.lastPgoff file.fPos len buf).1
    · cases hfile'
      exact hi
  | useFrames freeq frames =>
    cases hstep
    refine ⟨h.file, h.mounted, ⟨⟨h.caches.distinct.keys, hallowed.1⟩, fun s hs => ?_⟩, h.files⟩
    obtain ⟨i, hi, hino, his⟩ := h.caches.page s hs
    refine ⟨i, hi, hino, ?_⟩
    change i.IsPage disk s.pgoff (frames s.phys)
    rw [hallowed.2 s hs]
    exact his

/-- **A read returns bytes of the archive**, in every history of an archive below 4 GiB. -/
theorem tarfs_reads_archive {disk : Mem} (hbelow : Below4G disk) {st : TarState}
    (h : (tarSystem disk).Reachable st) : st.ReadsArchive disk := by
  have hgood : st.Good disk := by
    refine h.invariant (I := TarState.Good disk)
      (fun st hst => TarState.good_of_fresh hbelow hst) ?_
    exact fun st e st' hst hallowed hstep => hst.step hallowed hstep
  have hdistinct := hgood.caches.distinct
  refine ⟨hdistinct.keys, hdistinct.frames.of_append_right, hgood.files, ?_⟩
  rintro inode hi lastPgoff off len buf r hoff rfl
  obtain ⟨-, htotal, hbytes⟩ :=
    tarfsRead_spec hgood.mounted hi hgood.caches lastPgoff off len buf
  have hsize := (hgood.mounted.placed inode hi).below
  refine ⟨inode.offset, inode.size, hgood.file inode hi, htotal, ?_, hbytes, ?_⟩
  · unfold readLen at htotal
    exact Nat.mod_eq_of_lt (by omega)
  · unfold ramfsRead bytesAt
    rw [← map_take, take_range, min_eq_left htotal]
    refine map_congr_left fun i hin => ?_
    rw [Nat.zero_add]
    exact hbytes i (mem_range.mp hin)

/-! ### Archives -/

/-- A header for a file with the name `a`, whose size is given by its digits. -/
def headerByte (digits : List UInt8) (x : ℕ) : UInt8 :=
  if x = 0 then 97
  else if 124 ≤ x ∧ x < 136 then digits.getD (x - 124) 0
  else if x = 156 then 48
  else if 257 ≤ x ∧ x < 262 then tarMagic.getD (x - 257) 0
  else 0

/-- An archive with one file. -/
def oneFile (digits : List UInt8) : Mem := fun x =>
  if x < 512 then headerByte digits x else UInt8.ofNat x

/-- An archive with two files. The first ends 512 bytes before 4 GiB, where the header of the
second stands; that has one byte, a `B`. -/
def twoFiles : Mem := fun x =>
  if x < 512 then headerByte (cstr "37777776000") x
  else if 2 ^ 32 - 512 ≤ x ∧ x < 2 ^ 32 then headerByte (cstr "1") (x - (2 ^ 32 - 512))
  else if x = 2 ^ 32 then 66
  else 0

/-- The archive is mounted with its inodes, there are 100 free frames and nothing is open. -/
def mountedState (inodes : List TarInode) : TarState where
  inodes := inodes
  pc := .empty (List.range' 1024 100) fun _ _ => 0
  files _ := none

variable {inodes : List TarInode}

theorem fresh_mountedState {disk : Mem} (fuel : ℕ)
    (h : tarfsFill disk (fun _ => .linked) fuel 0 0 1 = some inodes) :
    (mountedState inodes).Fresh disk :=
  ⟨_, fuel, 1, _, _, by decide, nodup_range', h, rfl, rfl⟩

/-- A test for opens and reads. -/
def TarState.canDo (st : TarState) : TarEvent → Bool
  | .vfsOpen _ inode => decide (inode ∈ st.inodes)
  | .vfsClose _ => true
  | .vfsRead _ len _ => decide (len < 2 ^ 32)
  | .useFrames _ _ => false

theorem TarState.of_canDo {e : TarEvent} (h : st.canDo e = true) : st.Allowed e := by
  cases e with
  | vfsOpen hd inode => exact (of_decide_eq_true h : inode ∈ st.inodes)
  | vfsClose hd => trivial
  | vfsRead hd len buf => exact (of_decide_eq_true h : len < 2 ^ 32)
  | useFrames freeq frames => cases h

/-- An archive with one file is below 4 GiB, if the file is. -/
theorem below4G_of_one {disk : Mem} (hlast : isHeader disk (archiveNext disk 0) = false)
    (hsize : 512 + archiveSize disk 0 ≤ 2 ^ 32) : Below4G disk := by
  have hnone : ∀ n, archiveHeader disk (n + 1) = none := by
    intro n
    induction n with
    | zero =>
      unfold archiveHeader archiveHeader
      split
      · exact if_neg (by rw [hlast]; exact Bool.false_ne_true)
      · rfl
    | succ n ih =>
      unfold archiveHeader
      rw [ih]
      rfl
  intro n start size hfile
  obtain ⟨blk, hblk, heq⟩ := map_eq_some_iff.mp hfile
  cases n with
  | succ n => cases (hnone n).symm.trans hblk
  | zero =>
    unfold archiveHeader at hblk
    split at hblk
    · cases hblk
      cases heq
      exact ⟨by decide, hsize⟩
    · cases hblk

/-- A file of five bytes is opened, and three of them are read. -/
theorem tarfs_reads_archive_one : ∃ st, (tarSystem (oneFile (cstr "5"))).Reachable st ∧
    (st.files 0).map TarFile.fPos = some 3 ∧ st.pc.valid.length = 1 ∧
    st.ReadsArchive (oneFile (cstr "5")) := by
  obtain ⟨st, hst, hpos, hlen⟩ := System.exists_reachable (S := tarSystem (oneFile (cstr "5")))
    (fun st e => st.canDo e) [.vfsOpen 0 ⟨0, 1, 512, 5⟩, .vfsRead 0 3 fun _ => 0]
    (fun st => (st.files 0).map TarFile.fPos = some 3 ∧ st.pc.valid.length = 1)
    (fun _ _ => TarState.of_canDo)
    (s := mountedState [⟨0, 1, 512, 5⟩]) (.init (fresh_mountedState 2 (by decide +kernel)))
    (by decide +kernel)
  refine ⟨st, hst, hpos, hlen, tarfs_reads_archive (below4G_of_one ?_ ?_) hst⟩
  · decide +kernel
  · decide +kernel

/-- **The bytes of another file.** The second file begins at 4 GiB. Its `offset` is 0, and its
byte is read from the beginning of the archive. -/
theorem tarfs_reads_wrapped : ∃ st, (tarSystem twoFiles).Reachable st ∧
    ¬ st.ReadsArchive twoFiles := by
  refine ⟨mountedState [⟨0, 1, 512, 2 ^ 32 - 1024⟩, ⟨1, 2, 0, 1⟩],
    .init (fresh_mountedState 3 (by decide +kernel)), fun hreads => ?_⟩
  obtain ⟨start, size, hfile, -, -, hbytes, -⟩ := hreads.read ⟨1, 2, 0, 1⟩
    (mem_cons_of_mem _ mem_cons_self) (some 0) 0 1 (fun _ => 0) _ (by decide) rfl
  have hwhere : archiveFile twoFiles 1 = some (2 ^ 32, 1) := by decide +kernel
  obtain ⟨rfl, -⟩ := Prod.mk.inj (some.inj (hwhere.symm.trans hfile))
  exact absurd (hbytes 0 (by decide +kernel)) (by decide +kernel)

/-! ## Complete reads -/

/-- The sizes of files are words. -/
theorem size_tarfsFill {disk : Mem} {fill : ℕ → Fill} {fuel ino : ℕ}
    (h : tarfsFill disk fill fuel 0 0 ino = some inodes) : ∀ i ∈ inodes, i.size < 2 ^ 32 := by
  refine tarfsFill_rule (P := fun _ _ _ inodes => ∀ i ∈ inodes, i.size < 2 ^ 32) ?_ ?_ ?_ fuel h
  · exact fun _ _ _ => nofun
  · exact fun n blk ino e blk' inodes _ hrest => hrest.elim id id
  · rintro n blk ino e blk' inodes hnext hrest i (_ | ⟨_, hi⟩)
    · exact size_tarNextEntry hnext
    · exact hrest i hi

/-- The pages that `n` bytes from an offset on lie in. -/
def pagesOf (off n : ℕ) : List ℕ :=
  List.range' (off / 4096) ((off + n + 4095) / 4096 - off / 4096)

/-- The pages a read of an open file needs that are not in the cache. -/
def TarState.missing (st : TarState) (file : TarFile) (len : ℕ) : ℕ :=
  st.pc.missing file.inode.ino (pagesOf file.fPos (readLen file.inode.size file.fPos len))

/-- In every history the open files have a size that is a word. -/
theorem size_of_reachable {disk : Mem} (h : (tarSystem disk).Reachable st) {hd : ℕ}
    {file : TarFile} (hfile : st.files hd = some file) : file.inode.size < 2 ^ 32 := by
  have hinv : (∀ i ∈ st.inodes, i.size < 2 ^ 32) ∧
      ∀ h file, st.files h = some file → file.inode.size < 2 ^ 32 := by
    refine h.invariant (I := fun st => (∀ i ∈ st.inodes, i.size < 2 ^ 32) ∧
      ∀ h file, st.files h = some file → file.inode.size < 2 ^ 32) (fun st hst => ?_) ?_
    · obtain ⟨fill, fuel, ino, freeq, frames, -, -, hfill, -, hfiles⟩ := hst
      exact ⟨size_tarfsFill hfill, by rw [hfiles]; exact nofun⟩
    · intro st e st' hst hallowed hstep
      cases e with
      | vfsOpen hd inode =>
        cases hstep
        refine ⟨hst.1, forall_update_files (P := fun file => file.inode.size < 2 ^ 32) hst.2 ?_⟩
        exact fun file hfile => some.inj hfile ▸ hst.1 inode hallowed
      | vfsClose hd =>
        cases hstep
        exact ⟨hst.1, forall_update_files (P := fun file => file.inode.size < 2 ^ 32) hst.2 nofun⟩
      | vfsRead hd len buf =>
        obtain ⟨file, hfile, rfl⟩ := map_eq_some_iff.mp hstep
        refine ⟨hst.1, forall_update_files (P := fun file => file.inode.size < 2 ^ 32) hst.2 ?_⟩
        exact fun file' hfile' => some.inj hfile' ▸ hst.2 hd file hfile
      | useFrames freeq frames =>
        cases hstep
        exact hst
  exact hinv.2 hd file hfile

/-- **When a read is complete.** With frames for the pages that are not in the cache, it returns
all there is to return exactly when there are as many free slots. -/
theorem tarfs_read_complete_iff {disk : Mem} {st : TarState} (h : (tarSystem disk).Reachable st)
    {hd : ℕ} {file : TarFile} (hfile : st.files hd = some file)
    (hpos : file.fPos < file.inode.size) {len : ℕ} (hlen : 0 < len)
    (hframes : st.missing file len ≤ st.pc.freeq.length) (buf : Mem) :
    (tarfsRead disk file.inode st.pc file.lastPgoff file.fPos len buf).total =
        min len (file.inode.size - file.fPos) ↔
      st.missing file len ≤ st.pc.freeSlots := by
  have hsize := size_of_reachable h hfile
  have hread : 0 < readLen file.inode.size file.fPos len := by
    unfold readLen
    omega
  have hend : file.fPos + readLen file.inode.size file.fPos len ≤ file.inode.size := by
    unfold readLen
    omega
  have hfirst : ∀ e, file.fPos / 4096 ≤ e →
      range' (e - (e - file.fPos / 4096)) (e - file.fPos / 4096) =
        range' (file.fPos / 4096) (e - file.fPos / 4096) := by
    intro e he
    congr 1
    omega
  have hloop := tarfsLoop_complete_iff disk hsize hread hend rfl _
    (r := ⟨st.pc, file.lastPgoff, 0, buf⟩) le_rfl
  rw [hfirst _ (by omega)] at hloop
  unfold tarfsRead
  dsimp only
  rw [if_neg hread.ne']
  exact hloop (by dsimp only; omega) hframes

/-- A file of 65 pages. -/
def longFile : Mem := oneFile (cstr "1010000")

/-- Its first 64 pages are read, and again from the cache. -/
theorem tarfs_read_complete_cached : ∃ st, (tarSystem longFile).Reachable st ∧
    ∃ file, st.files 1 = some file ∧ st.pc.freeSlots = 0 ∧ file.fPos < file.inode.size ∧
      (tarfsRead longFile file.inode st.pc file.lastPgoff file.fPos 262144 fun _ => 0).total =
        262144 := by
  -- the cache is full, and holds what a read through the second handle needs
  obtain ⟨st, hst, file, hfile, hslots, hpos, hmissing, hmin⟩ := System.exists_reachable
    (S := tarSystem longFile) (fun st e => st.canDo e)
    [.vfsOpen 0 ⟨0, 1, 512, 266240⟩, .vfsRead 0 262144 fun _ => 0, .vfsOpen 1 ⟨0, 1, 512, 266240⟩]
    (fun st => ∃ file ∈ st.files 1, st.pc.freeSlots = 0 ∧ file.fPos < file.inode.size ∧
      st.missing file 262144 = 0 ∧ min 262144 (file.inode.size - file.fPos) = 262144)
    (fun _ _ => TarState.of_canDo) (s := mountedState [⟨0, 1, 512, 266240⟩])
    (.init (fresh_mountedState 2 (by decide +kernel))) (by decide +kernel)
  have hlen : 0 < 262144 := by decide
  have hread := (tarfs_read_complete_iff hst hfile hpos hlen (by omega) fun _ => 0).mpr (by omega)
  exact ⟨st, hst, file, hfile, hslots, hpos, hread.trans hmin⟩

/-- **A read that returns nothing.** When 64 pages of the file have been read, the last one is
never read. -/
theorem tarfs_read_short : ∃ st, (tarSystem longFile).Reachable st ∧
    ∃ file, st.files 0 = some file ∧ file.fPos < file.inode.size ∧
      st.missing file 4096 ≤ st.pc.freeq.length ∧
      (tarfsRead longFile file.inode st.pc file.lastPgoff file.fPos 4096 fun _ => 0).total ≠
        min 4096 (file.inode.size - file.fPos) := by
  refine System.exists_reachable (S := tarSystem longFile) (fun st e => st.canDo e)
    [.vfsOpen 0 ⟨0, 1, 512, 266240⟩, .vfsRead 0 262144 fun _ => 0] _
    (fun _ _ => TarState.of_canDo) (s := mountedState [⟨0, 1, 512, 266240⟩])
    (.init (fresh_mountedState 2 (by decide +kernel))) ?_
  decide +kernel

end PokuOS
