import PokuOS.Caps
import PokuOS.VfsLookup

/-!
# Confinement to a root path

`resolve_path`, `vfs_lookup` and `vfs_create` as `sys_open_fn`, `sys_ls_fn` and `sys_exec` call
them for a task with a `root_path`.

`vfs_lookup` tests the text of the path, and **the walk agrees with the text**: whatever mounts
there are, what a confined task reaches lies below the root, or in a file system mounted there.
`vfs_create` tests nothing, and relies on `resolve_path` to put the root in front. That does
not put it in front of a path it has no room for.
-/

namespace PokuOS

open CallM List Option

/-! ## The calls -/

/-- `sizeof(path)` and `sizeof(resolved)` in `syscall.c`. -/
def pathSize : ℕ := 128

/-- `copy_user_path`, when it succeeds: the string at the pointer, as far as it fits. -/
def copyUserPath (s : CStr) : CStr := s.take (pathSize - 1)

/-- The lookup of `sys_ls_fn`. -/
def sysLsLookup (pool : Pool) (root path : CStr) : VfsM DentryId :=
  vfsLookup pool root (resolvePath root path pathSize)

/-- The file `sys_exec` reads. -/
def sysExecFile (pool : Pool) (root path : CStr) : VfsM File :=
  vfsOpen pool root (resolvePath root path pathSize) 0

/-- The path `sys_open_fn` hands to `vfs_create`, if it calls it. -/
def createPath (pool : Pool) (root path : CStr) (flags : ℕ) (w : Work) : Option CStr :=
  if flags &&& oCreat ≠ 0 ∧
      (vfsOpen pool root (resolvePath root path pathSize) flags w).any fun r => r.1.isNone then
    some (resolvePath root path pathSize)
  else none

/-- The file of `sys_open_fn`, from `vfs_open` or from `vfs_create`. -/
def sysOpenFile (pool : Pool) (root path : CStr) (flags mode : ℕ) : VfsM File := fun w => do
  let (f, w') ← vfsOpen pool root (resolvePath root path pathSize) flags w
  match createPath pool root path flags w with
  | none => some (f, w')
  | some p => vfsCreate pool p (mode % 2 ^ 16 ||| sIfreg) w'

/-! ## Lookups -/

/-- **Where the mounts of a path and of the root it is within come from**: one is mounted at the
root or below it, or both paths have the same. -/
theorem Vfs.findMount_within {v : Vfs} {path root : CStr} (hin : pathIsWithin path root)
    (hroot : root ≠ []) :
    (∃ m ∈ v.mounts, v.findMount path = some m ∧ pathIsWithin m.path root) ∨
      v.findMount path = v.findMount root ∧ mountLength (v.findMount root) < root.length := by
  by_cases hlong : root.length ≤ mountLength (v.findMount path)
  · cases hm : v.findMount path with
    | none =>
      rw [hm] at hlong
      exact absurd (length_eq_zero_iff.mp (Nat.le_zero.mp hlong)) hroot
    | some m =>
      rw [hm] at hlong
      obtain ⟨hmem, hm⟩ := findMount_some hm
      exact .inl ⟨m, hmem, rfl, pathIsWithin_of_length_le hin hm hlong⟩
  · have hsame : v.findMount path = v.findMount root := by
      refine findMount_congr fun m hm => Bool.eq_iff_iff.mpr ⟨fun h => ?_, fun h => ?_⟩
      · have hle := length_le_findMount hm h
        exact pathIsWithin_of_length_le h hin (by omega)
      · exact pathIsWithin_trans hin h
    exact .inr ⟨hsame, hsame ▸ Nat.not_le.mp hlong⟩

/-- A walk that goes on after a root passes what is at the root. -/
theorem Vfs.walkTokens_within {v : Vfs} {base d : DentryId} {x : CStr} (hx : x ≠ []) {y : CStr}
    (hy : y = [] ∨ ∃ z, y = slash :: z)
    (h : v.walkTokens base (pathTokens (skipSlash (x ++ y))) = some d) :
    ∃ r, v.walkTokens base (pathTokens (skipSlash x)) = some r ∧ v.Subtree r d := by
  rcases hy with rfl | ⟨z, rfl⟩
  · rw [append_nil] at h
    exact ⟨d, h, .refl⟩
  · obtain ⟨empty, hsplit, _⟩ := splitOn_eq_pathTokens (skipSlash x)
    rw [skipSlash_append hx, pathTokens_append, hsplit, append_assoc] at h
    obtain ⟨r, hr, h⟩ := walkTokens_append.mp h
    exact ⟨r, hr, subtree_of_walkTokens h⟩

/-- **A path within a root is looked up below the root**, or below a file system that is mounted
at the root or under it. -/
theorem Vfs.lookup_within {v : Vfs} (hmounts : ∀ m ∈ v.mounts, m.sb.sRoot.isSome)
    {path root : CStr} (hin : pathIsWithin path root) (hroot : root ≠ []) {d : DentryId}
    (h : v.lookup path = some d) :
    (∃ r, v.lookup root = some r ∧ v.Subtree r d) ∨
      ∃ m ∈ v.mounts, pathIsWithin m.path root ∧ ∃ r, m.sb.sRoot = some r ∧ v.Subtree r d := by
  obtain ⟨base, hbase, hwalk⟩ := bind_eq_some_iff.mp h
  obtain ⟨vfsRoot, hvfsRoot, rfl⟩ := map_eq_some_iff.mp hbase
  rcases findMount_within hin hroot with ⟨m, hm, hfind, hwithin⟩ | ⟨hsame, hlen⟩
  · obtain ⟨r, hr⟩ := isSome_iff_exists.mp (hmounts m hm)
    have hmount : v.mountRoot path = some r := by rw [mountRoot, hfind, bind_some, hr]
    rw [hmount] at hwalk
    exact .inr ⟨m, hm, hwithin, r, hr, subtree_of_walkTokens hwalk⟩
  · obtain ⟨y, rfl, hy⟩ : ∃ y, path = root ++ y ∧ (y = [] ∨ ∃ z, y = slash :: z) := by
      rcases pathIsWithin_iff.mp hin with rfl | ⟨z, rfl⟩
      · exact ⟨[], (append_nil _).symm, .inl rfl⟩
      · exact ⟨slash :: z, rfl, .inr ⟨z, rfl⟩⟩
    have hmount : v.mountRoot (root ++ y) = v.mountRoot root := by
      rw [mountRoot, mountRoot, hsame]
    -- the rest of the longer path is the rest of the root, and goes on
    have hrest : v.lookupRest (root ++ y) = v.lookupRest root ++ y := by
      unfold lookupRest
      rw [hmount]
      split
      · rw [mountRest, mountRest, hsame]
        exact drop_append_of_le_length hlen.le
      · rfl
    have hne : v.lookupRest root ≠ [] := by
      unfold lookupRest
      split
      · rw [mountRest, ne_eq, drop_eq_nil_iff, Nat.not_le]
        exact hlen
      · exact hroot
    rw [hrest, hmount] at hwalk
    obtain ⟨r, hr, hsub⟩ := walkTokens_within hne hy hwalk
    refine .inl ⟨r, bind_eq_some_iff.mpr ⟨_, ?_, hr⟩, hsub⟩
    rw [lookupBase, hvfsRoot, map_some]

/-- The dentries a task with this root reaches by a path of its own: with `sys_ls`, with
`sys_exec`, and with `sys_open` without `O_CREAT`. -/
inductive Reaches (w : Work) (root : CStr) : DentryId → Prop where
  /-- the directory to be listed -/
  | ls {pool : Pool} {s : CStr} {d : DentryId} {w' : Work} :
    sysLsLookup pool root (copyUserPath s) w = some (some d, w') → Reaches w root d
  /-- the program; a path that does not fit is refused -/
  | exec {pool : Pool} {path : CStr} {f : File} {w' : Work} : path.length < pathSize →
    sysExecFile pool root path w = some (some f, w') → Reaches w root f.fDentry
  /-- the file to be opened -/
  | open {pool : Pool} {s : CStr} {flags mode : ℕ} {f : File} {w' : Work} :
    flags &&& oCreat = 0 → sysOpenFile pool root (copyUserPath s) flags mode w = some (some f, w') →
    Reaches w root f.fDentry

/-- What is reached has been looked up, by a path of the task's root. -/
theorem Reaches.lookup {w : Work} {root : CStr} {d : DentryId} (h : Reaches w root d) :
    ∃ path, rootAllows root path ∧ w.vfs.lookup path = some d := by
  cases h with
  | ls h =>
    obtain ⟨_, hallow, hd, _⟩ := vfsLookup_some_iff.mp h
    exact ⟨_, hallow, hd⟩
  | exec _ h =>
    obtain ⟨_, hallow, hd, _⟩ := vfsLookup_some_iff.mp (lookup_of_vfsOpen h)
    exact ⟨_, hallow, hd⟩
  | @«open» pool s flags mode f w' hflags h =>
    obtain ⟨⟨f', w1⟩, hopen, h⟩ := bind_eq_some_iff.mp h
    have hcreate : createPath pool root (copyUserPath s) flags w = none :=
      if_neg fun hc => hc.1 hflags
    simp only [hcreate] at h
    cases h
    obtain ⟨_, hallow, hd, _⟩ := vfsLookup_some_iff.mp (lookup_of_vfsOpen hopen)
    exact ⟨_, hallow, hd⟩

/-- The check of `vfs_lookup` for a task that is confined. -/
theorem pathIsWithin_of_rootAllows {root path : CStr} (hne : root ≠ []) (hslash : root ≠ [slash])
    (h : rootAllows root path) : pathIsWithin path root := by
  unfold rootAllows isPathAllowed at h
  have hempty : root.isEmpty = false := isEmpty_eq_false_iff.mpr hne
  have hbeq : (root == [slash]) = false := beq_eq_false_iff_ne.mpr hslash
  rw [hempty, hbeq, Bool.false_or, Bool.false_or, Bool.false_or, Bool.and_eq_true] at h
  exact h.2

/-- **Lookups are confined.** What a task with a root reaches lies below what is at the root, or
in a file system that is mounted at the root or below it. -/
theorem lookup_confined {w : Work} (hmounts : ∀ m ∈ w.vfs.mounts, m.sb.sRoot.isSome)
    {root : CStr} (hlen : root.length < rootPathSize) (hne : root ≠ []) (hslash : root ≠ [slash])
    {d : DentryId} (h : Reaches w root d) :
    (∃ pool r, vfsLookup pool [] root w = some (some r, w) ∧ w.vfs.Subtree r d) ∨
      ∃ m ∈ w.vfs.mounts, pathIsWithin m.path root ∧
        ∃ r, m.sb.sRoot = some r ∧ w.vfs.Subtree r d := by
  obtain ⟨path, hallow, hd⟩ := h.lookup
  have hin := pathIsWithin_of_rootAllows hne hslash hallow
  rcases Vfs.lookup_within hmounts hin hne hd with ⟨r, hr, hsub⟩ | hmount
  · refine .inl ⟨Pool.ample, r, ?_, hsub⟩
    have hsize : rootPathSize < numPages * pageSize := by decide
    exact vfsLookup_of_lookup Pool.ample_ample hne rfl (by omega) hr
  · exact .inr hmount

/-! ## The file systems of the kernel -/

/-- The root directory of a file system. -/
def rootDentry (i : InodeId) : Dentry where
  dName := [slash]
  dInode := some i
  dParent := none

/-- A file in a root directory. -/
def fileDentry (name : CStr) (i : InodeId) (parent : DentryId) : Dentry where
  dName := name
  dInode := some i
  dParent := some parent

/-- The inode of a root directory. -/
def rootInode (ino : ℕ) (op : InodeOps) (priv : Option Private) (children : List DentryId) :
    Inode where
  iIno := ino
  iMode := sIfdir ||| 0o755
  iOp := some op
  iFop := none
  iPrivate := priv
  iChildren := children

/-- The inode of a file of an archive. -/
def archiveInode (ino : ℕ) (op : FileOps) (priv : Private) : Inode where
  iIno := ino
  iMode := sIfreg ||| 0o644
  iOp := none
  iFop := some op
  iPrivate := some priv
  iChildren := []

/-- The file systems after `kernel_main` has mounted them: one file in the initial archive, one
on the disk at `/mnt`, and an empty `/home`. -/
def bootVfs : Vfs where
  dentry
    | 0 => some (rootDentry 0)
    | 1 => some (fileDentry (cstr "motd") 1 0)
    | 2 => some (rootDentry 2)
    | 3 => some (fileDentry (cstr "shell.elf") 3 2)
    | 4 => some (rootDentry 4)
    | _ => none
  inode
    | 0 => some (rootInode 1 .ramfs (some (.ramfs 0 none)) [1])
    | 1 => some (archiveInode 2 .ramfs (.ramfs 2 (some fun _ => 0x68)))
    | 2 => some (rootInode 3 .tarfs none [3])
    | 3 => some (archiveInode 4 .tarfs (.tarfs 512 1024))
    | 4 => some (rootInode 5 .memfs (some (.memfs ⟨0, 0, none⟩)) [])
    | _ => none
  nextDentry := 5
  nextInode := 5
  vfsInoNext := 6
  mounts := [⟨cstr "/home", ⟨some 4⟩⟩, ⟨cstr "/mnt", ⟨some 2⟩⟩]
  vfsRoot := some 0

/-- The start of a call. -/
def Vfs.enter (v : Vfs) : Work := ⟨v, []⟩

theorem reaches_shell : Reaches bootVfs.enter (cstr "/mnt") 3 :=
  .ls (s := cstr "shell.elf") <|
    vfsLookup_of_lookup Pool.ample_ample (by decide +kernel) (by decide +kernel)
      (by decide +kernel) (by decide +kernel)

/-- A task with the root `/mnt` reaches the shell. -/
theorem lookup_confined_mnt :
    Reaches bootVfs.enter (cstr "/mnt") 3 ∧
      ((∃ pool r, vfsLookup pool [] (cstr "/mnt") bootVfs.enter = some (some r, bootVfs.enter) ∧
          bootVfs.Subtree r 3) ∨
        ∃ m ∈ bootVfs.mounts, pathIsWithin m.path (cstr "/mnt") ∧
          ∃ r, m.sb.sRoot = some r ∧ bootVfs.Subtree r 3) :=
  ⟨reaches_shell, lookup_confined (w := bootVfs.enter) (by decide +kernel) (by decide +kernel)
    (by decide +kernel) (by decide +kernel) reaches_shell⟩

/-! ## Creation -/

section Create

variable {root path : CStr}

theorem resolvePath_of_fits (hne : root ≠ []) (hslash : root ≠ [slash])
    (htrail : root.getLast? ≠ some slash) (hfits : root.length + path.length + 2 ≤ pathSize) :
    resolvePath root path pathSize = root ++ slash :: path := by
  rw [resolvePath, if_neg (not_or.mpr ⟨hne, hslash⟩), if_neg (Nat.not_lt.mpr hfits),
    if_neg htrail]

theorem resolvePath_of_not_fits (hne : root ≠ []) (hslash : root ≠ [slash])
    (hfits : ¬root.length + path.length + 2 ≤ pathSize) :
    resolvePath root path pathSize = path := by
  rw [resolvePath, if_neg (not_or.mpr ⟨hne, hslash⟩), if_pos (Nat.not_le.mp hfits)]

/-- The path that goes to `vfs_create` is the resolved one. -/
theorem eq_of_createPath {pool : Pool} {flags : ℕ} {w : Work} {p : CStr}
    (h : createPath pool root path flags w = some p) : p = resolvePath root path pathSize := by
  unfold createPath at h
  split at h
  · exact (some.inj h).symm
  · cases h

/-- **Which creations are confined.** Every path `sys_open` with `O_CREAT` hands to `vfs_create`
lies under the task's root exactly when root and path fit the buffer of `resolve_path`, or the
path names a place under the root itself. -/
theorem create_confined_iff (pool : Pool) (habs : root.head? = some slash)
    (hslash : root ≠ [slash]) (htrail : root.getLast? ≠ some slash)
    (hlen : root.length < rootPathSize) (s : CStr) {flags : ℕ} (hflags : flags &&& oCreat ≠ 0)
    (w : Work) :
    (∀ p, createPath pool root (copyUserPath s) flags w = some p → root ++ [slash] <+: p) ↔
      root.length + (copyUserPath s).length + 2 ≤ pathSize ∨
        root ++ [slash] <+: copyUserPath s := by
  have hne : root ≠ [] := by
    rintro rfl
    cases habs
  constructor
  · intro h
    by_contra hnot
    obtain ⟨hfits, hprefix⟩ := not_or.mp hnot
    have hresolve := resolvePath_of_not_fits hne hslash hfits
    have hdenied : ¬rootAllows root (copyUserPath s) := by
      intro hallow
      rcases pathIsWithin_iff.mp (pathIsWithin_of_rootAllows hne hslash hallow) with
        heq | ⟨rest, hrest⟩
      · rw [heq] at hfits
        unfold rootPathSize at hlen
        unfold pathSize at hfits
        omega
      · exact hprefix ⟨rest, by rw [hrest, append_assoc, singleton_append]⟩
    refine hprefix (h _ ?_)
    rw [createPath, hresolve]
    refine if_pos ⟨hflags, ?_⟩
    rw [vfsOpen_of_null flags (vfsLookup_denied hdenied w)]
    rfl
  · intro h p hp
    rw [eq_of_createPath hp]
    by_cases hfits : root.length + (copyUserPath s).length + 2 ≤ pathSize
    · rw [resolvePath_of_fits hne hslash htrail hfits]
      exact ⟨copyUserPath s, by rw [append_assoc, singleton_append]⟩
    · rw [resolvePath_of_not_fits hne hslash hfits]
      exact h.resolve_left hfits

end Create

/-- A short name is created under the root. -/
theorem create_confined_short :
    createPath Pool.ample (cstr "/home") (copyUserPath (cstr "notes")) oCreat bootVfs.enter =
        some (cstr "/home/notes") ∧
      cstr "/home" ++ [slash] <+: cstr "/home/notes" := by
  have hpath : createPath Pool.ample (cstr "/home") (copyUserPath (cstr "notes")) oCreat
      bootVfs.enter = some (cstr "/home/notes") := by decide +kernel
  have hconfined : ∀ p, createPath Pool.ample (cstr "/home") (copyUserPath (cstr "notes")) oCreat
      bootVfs.enter = some p → cstr "/home" ++ [slash] <+: p :=
    (create_confined_iff Pool.ample (by decide +kernel) (by decide +kernel) (by decide +kernel)
      (by decide +kernel) (cstr "notes") (by decide) bootVfs.enter).mpr (.inl (by decide +kernel))
  exact ⟨hpath, hconfined _ hpath⟩

/-- A file in `/home` with a name of 110 characters. -/
def longPath : CStr := cstr "/home/" ++ replicate 110 0x61

/-- **A task whose root is `/restricted` creates a file in `/home`**: the name is too long for
the root to be put in front. -/
theorem create_escapes :
    createPath Pool.ample (cstr "/restricted") (copyUserPath longPath) oCreat bootVfs.enter =
        some longPath ∧
      ¬cstr "/restricted" ++ [slash] <+: longPath ∧
      bootVfs.lookup longPath = none ∧
      ∃ f w', sysOpenFile Pool.ample (cstr "/restricted") (copyUserPath longPath) oCreat 0
          bootVfs.enter = some (some f, w') ∧ w'.vfs.lookup longPath = some f.fDentry := by
  refine ⟨by decide +kernel, by decide +kernel, by decide +kernel, ?_⟩
  obtain ⟨⟨_, w'⟩, hopen, f, rfl, hfound⟩ :
      ∃ r ∈ sysOpenFile Pool.ample (cstr "/restricted") (copyUserPath longPath) oCreat 0
        bootVfs.enter, ∃ f ∈ r.1, r.2.vfs.lookup longPath = some f.fDentry := by decide +kernel
  exact ⟨f, w', hopen, hfound⟩

end PokuOS
