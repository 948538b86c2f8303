import PokuOS.Call
import PokuOS.Memory
import PokuOS.Path

/-!
# The file system

`fs/vfs.c`, `fs/mount.c` and the inodes of the file systems below them.

Dentries and inodes are named by numbers that are never used again; a dentry that has been
freed has no contents, and reading it is undefined. The list through `i_children` and `d_next`
is the list of its members.

The calls allocate, and may fail at each allocation. What `kmalloc` answers is a `Pool`.
-/

namespace PokuOS

open Function

/-! ## Memory for a call -/

/-- The kernel heap during a call. `kmalloc` is deterministic, a block that is freed again
leaves the heap as it was, and where a request has failed there is no frame left for the heap
to grow by: so the answer depends on the request and on the blocks the call holds. -/
structure Pool where
  /-- the contents of the block for a request of this size, when blocks of these are held -/
  give : List ℕ → ℕ → Option Mem
  /-- a request of no bytes is refused -/
  zero : ∀ held, give held 0 = none
  /-- no block is larger than physical memory -/
  large : ∀ held n, numPages * pageSize ≤ n → give held n = none

/-- A heap with a block of zeros for every request it can meet. -/
def Pool.ample : Pool where
  give _ n := if 0 < n ∧ n < numPages * pageSize then some fun _ => 0 else none
  zero _ := rfl
  large _ _ h := if_neg fun hn => absurd hn.2 (Nat.not_lt.mpr h)

/-- No request above the size of physical memory is met. -/
theorem Pool.lt_of_give {pool : Pool} {held : List ℕ} {n : ℕ} (h : (pool.give held n).isSome) :
    n < numPages * pageSize := by
  by_contra hge
  rw [pool.large held n (Nat.not_lt.mp hge)] at h
  cases h

/-! ## State -/

/-- A `struct dentry *` that is not `NULL`. -/
abbrev DentryId : Type := ℕ

/-- A `struct inode *` that is not `NULL`. -/
abbrev InodeId : Type := ℕ

/-- A `struct inode_operations *`. They all have `vfs_generic_lookup`. -/
inductive InodeOps where
  /-- `ramfs_iops` -/
  | ramfs
  /-- `tarfs_iops` -/
  | tarfs
  /-- `memfs_iops`, the one with a `create` -/
  | memfs
  deriving DecidableEq, Repr

/-- A `struct file_operations *`. -/
inductive FileOps where
  /-- `ramfs_fops` -/
  | ramfs
  /-- `tarfs_fops` -/
  | tarfs
  /-- `memfs_fops` -/
  | memfs
  deriving DecidableEq, Repr

/-- `struct memfs_inode`. -/
structure MemfsInode where
  size : ℕ
  capacity : ℕ
  /-- the block at `data` -/
  data : Option Mem

/-- What `i_private` points to. -/
inductive Private where
  /-- `struct ramfs_inode` -/
  | ramfs (size : ℕ) (data : Option Mem)
  /-- `struct tarfs_inode` -/
  | tarfs (offset size : ℕ)
  /-- `struct memfs_inode` -/
  | memfs (min : MemfsInode)

/-- `struct inode`. -/
structure Inode where
  iIno : ℕ
  iMode : ℕ
  iOp : Option InodeOps
  iFop : Option FileOps
  iPrivate : Option Private
  /-- the list at `i_children` -/
  iChildren : List DentryId

/-- `struct dentry`. -/
structure Dentry where
  dName : CStr
  dInode : Option InodeId
  dParent : Option DentryId

/-- `struct super_block`. -/
structure SuperBlock where
  sRoot : Option DentryId

/-- `struct mount_node`. -/
structure MountNode where
  path : CStr
  sb : SuperBlock

/-- The state of the file system. -/
structure Vfs where
  /-- the dentries that have not been freed -/
  dentry : DentryId → Option Dentry
  /-- the inodes -/
  inode : InodeId → Option Inode
  /-- the next dentry to be allocated -/
  nextDentry : DentryId
  /-- the next inode to be allocated -/
  nextInode : InodeId
  vfsInoNext : ℕ
  /-- the list at `mount_root`, the newest mount first -/
  mounts : List MountNode
  vfsRoot : Option DentryId

/-- The state within a call: the file system, and the sizes of the blocks the call holds. -/
structure Work where
  /-- the file system -/
  vfs : Vfs
  /-- the blocks, the latest first -/
  held : List ℕ

/-- A call into the file system. -/
abbrev VfsM (α : Type) : Type := CallM Work α

open CallM

/-- `kmalloc`, if it succeeds. -/
def kmalloc (pool : Pool) (n : ℕ) : VfsM Mem := fun w =>
  match pool.give w.held n with
  | none => some (none, w)
  | some block => some (some block, { w with held := n :: w.held })

/-- `kfree` of a block of this size. -/
def Work.kfree (w : Work) (n : ℕ) : Work := { w with held := w.held.erase n }

/-- Hold a block during a call, and free it whatever the call returns. -/
def withBlock {α : Type} (pool : Pool) (n : ℕ) (body : VfsM α) : VfsM α := fun w =>
  match pool.give w.held n with
  | none => some (none, w)
  | some _ => (body { w with held := n :: w.held }).map fun r => (r.1, r.2.kfree n)

/-- `sizeof(struct dentry)`. -/
def dentrySize : ℕ := 20

/-- `sizeof(struct inode)`. -/
def inodeSize : ℕ := 44

/-- `sizeof(struct memfs_inode)`. -/
def memfsInodeSize : ℕ := 12

/-- `sizeof(struct file)`. -/
def fileSize : ℕ := 24

/-- `sizeof(struct tarfs_file)`. -/
def tarfsFileSize : ℕ := 4

/-! ## Lookup -/

namespace Vfs

/-- `d->d_inode`, which must be there. -/
def inodeOf (v : Vfs) (d : DentryId) : Option Inode := do
  let dentry ← v.dentry d
  let i ← dentry.dInode
  v.inode i

/-- `vfs_generic_lookup` in a list of children; undefined when it meets a freed one. -/
def vfsGenericLookup (v : Vfs) (name : CStr) : List DentryId → Option (Option DentryId)
  | [] => some none
  | child :: children =>
    match v.dentry child with
    | none => none
    | some dentry =>
      if dentry.dName = name then some (some child) else vfsGenericLookup v name children

/-- Whether a mount of the loop in `vfs_find_mount` replaces the best so far. -/
def betterMount (path : CStr) (best : Option MountNode) (node : MountNode) : Option MountNode :=
  if pathIsWithin path node.path ∧ (best.elim 0 fun m => m.path.length) < node.path.length then
    some node
  else best

/-- The mount `vfs_find_mount` finds. -/
def findMount (v : Vfs) (path : CStr) : Option MountNode :=
  v.mounts.foldl (betterMount path) none

/-- `*rest` of `vfs_find_mount`. -/
def mountRest (v : Vfs) (path : CStr) : CStr :=
  path.drop ((v.findMount path).elim 0 fun m => m.path.length)

/-- The root of the file system a path is mounted in. -/
def mountRoot (v : Vfs) (path : CStr) : Option DentryId :=
  (v.findMount path).bind fun m => m.sb.sRoot

end Vfs

/-- `vfs_lookup_component`; `name` and a dentry for it are copied for the call. -/
def vfsLookupComponent (pool : Pool) (dir : DentryId) (name : CStr) : VfsM DentryId := do
  let inode ← deref fun w => w.vfs.inodeOf dir
  check inode.iOp.isSome
  withBlock pool dentrySize <| withBlock pool (name.length + 1) fun w =>
    (w.vfs.vfsGenericLookup name inode.iChildren).map fun child => (child, w)

/-- The tokens the loop of `vfs_lookup_from` looks up: what stands between the slashes, also if
it is empty, and what follows the last one unless it is empty. -/
def pathTokens (path : CStr) : List CStr :=
  if (path.splitOn slash).getLast? = some [] then (path.splitOn slash).dropLast
  else path.splitOn slash

/-- A path without its first slash. -/
def skipSlash (path : CStr) : CStr :=
  if path.head? = some slash then path.tail else path

/-- `vfs_lookup_from`. -/
def vfsLookupFrom (pool : Pool) (base : DentryId) (path : CStr) : VfsM DentryId :=
  if skipSlash path = [] then pure base
  else
    withBlock pool ((skipSlash path).length + 1)
      ((pathTokens (skipSlash path)).foldlM (vfsLookupComponent pool) base)

/-- `is_path_allowed`. -/
def isPathAllowed (path root : CStr) : Bool := root.isEmpty || pathIsWithin path root

/-- Whether the check of `vfs_lookup` lets a task with this `root_path` use the path. -/
def rootAllows (root path : CStr) : Bool :=
  root.isEmpty || root == [slash] || (path.head? == some slash && isPathAllowed path root)

/-- `vfs_lookup` by a task with this `root_path`. -/
def vfsLookup (pool : Pool) (root path : CStr) : VfsM DentryId := do
  check (path ≠ [])
  let w ← get
  let vfsRoot ← ofOption w.vfs.vfsRoot
  check (rootAllows root path)
  match w.vfs.mountRoot path with
  | some sRoot => vfsLookupFrom pool sRoot (w.vfs.mountRest path)
  | none => vfsLookupFrom pool vfsRoot path

/-! ## Files -/

/-- `O_CREAT`. -/
def oCreat : ℕ := 0x100

/-- `O_TRUNC`. -/
def oTrunc : ℕ := 0x200

/-- `S_IFREG`. -/
def sIfreg : ℕ := 0x8000

/-- `S_IFDIR`. -/
def sIfdir : ℕ := 0x4000

/-- `struct file`. -/
structure File where
  fDentry : DentryId
  fPos : ℕ
  fFlags : ℕ
  fOp : Option FileOps
  /-- the `last_pgoff` at `f_private` -/
  lastPgoff : Option ℕ
  deriving DecidableEq

namespace Vfs

/-- Change an inode. -/
def modifyInode (v : Vfs) (i : InodeId) (f : Inode → Inode) : Vfs :=
  { v with inode := update v.inode i ((v.inode i).map f) }

/-- The `struct memfs_inode` of an inode. -/
def memfsInode (v : Vfs) (i : InodeId) : Option MemfsInode := do
  let inode ← v.inode i
  match inode.iPrivate with
  | some (.memfs min) => some min
  | _ => none

/-- Replace the `struct memfs_inode` of an inode. -/
def setMemfsInode (v : Vfs) (i : InodeId) (min : MemfsInode) : Vfs :=
  v.modifyInode i fun inode => { inode with iPrivate := some (.memfs min) }

end Vfs

/-- `memfs_open`. -/
def memfsOpen (i : InodeId) (f : File) : VfsM File := do
  let w ← get
  let min ← ofOption (w.vfs.memfsInode i)
  if f.fFlags &&& oTrunc ≠ 0 then do
    modify fun w => { w with vfs := w.vfs.setMemfsInode i { min with size := 0 } }
    return { f with fPos := 0 }
  else return f

/-- `f_op->open`, where there is one. -/
def fileOpen (pool : Pool) (i : InodeId) (f : File) : VfsM File :=
  match f.fOp with
  | none | some .ramfs => return f
  | some .tarfs => do
    let _ ← kmalloc pool tarfsFileSize
    return { f with lastPgoff := some 0 }
  | some .memfs => memfsOpen i f

/-- A `struct file` for a dentry with this inode is allocated and opened. -/
def newFile (pool : Pool) (d : DentryId) (i : InodeId) (flags : ℕ) : VfsM File := do
  let inode ← deref fun w => w.vfs.inode i
  let _ ← kmalloc pool fileSize
  onNull
    (fileOpen pool i
      { fDentry := d, fPos := 0, fFlags := flags, fOp := inode.iFop, lastPgoff := none })
    fun w => w.kfree fileSize

/-- `vfs_open`. -/
def vfsOpen (pool : Pool) (root path : CStr) (flags : ℕ) : VfsM File := do
  let d ← vfsLookup pool root path
  let dentry ← deref fun w => w.vfs.dentry d
  let i ← ofOption dentry.dInode
  newFile pool d i flags

/-! ## Creation -/

/-- What stands before the last slash of a path; the path itself if it has none. -/
def dirName (path : CStr) : CStr :=
  if (baseName path).length < path.length then
    path.take (path.length - (baseName path).length - 1)
  else path

namespace Vfs

/-- A new dentry, the first child of its parent's inode `p`. -/
def linkDentry (v : Vfs) (name : CStr) (parent : DentryId) (p : InodeId) : Vfs :=
  { v with
    dentry := update v.dentry v.nextDentry
      (some { dName := name, dInode := none, dParent := some parent })
    nextDentry := v.nextDentry + 1 }.modifyInode p fun inode =>
      { inode with iChildren := v.nextDentry :: inode.iChildren }

/-- Set `d_inode`. -/
def setDentryInode (v : Vfs) (d : DentryId) (i : InodeId) : Vfs :=
  { v with
    dentry := update v.dentry d
      ((v.dentry d).map fun dentry => { dentry with dInode := some i }) }

/-- A new inode. -/
def addInode (v : Vfs) (inode : Inode) : Vfs :=
  { v with inode := update v.inode v.nextInode (some inode),
           nextInode := v.nextInode + 1 }

end Vfs

/-- `vfs_free_dentry`. Nothing takes the dentry out of its parent's list. -/
def Work.vfsFreeDentry (w : Work) (d : DentryId) (name : CStr) : Work :=
  { (w.kfree (name.length + 1)).kfree dentrySize with
    vfs := { w.vfs with dentry := update w.vfs.dentry d none } }

/-- `vfs_new_dentry` with no inode, in a directory. -/
def vfsNewDentry (pool : Pool) (name : CStr) (parent : DentryId) : VfsM DentryId := do
  let _ ← kmalloc pool dentrySize
  let _ ← onNull (kmalloc pool (name.length + 1)) fun w => w.kfree dentrySize
  let p ← deref fun w => (w.vfs.dentry parent).bind fun dentry => dentry.dInode
  let w ← get
  modify fun w => { w with vfs := w.vfs.linkDentry name parent p }
  return w.vfs.nextDentry

/-- `memfs_create`: `memfs_alloc_inode` gives the dentry an inode. -/
def memfsCreate (pool : Pool) (d : DentryId) (mode : ℕ) : VfsM InodeId := do
  let _ ← kmalloc pool inodeSize
  -- `vfs_new_inode`
  let w ← get
  modify fun w => { w with vfs := { w.vfs with vfsInoNext := (w.vfs.vfsInoNext + 1) % 2 ^ 32 } }
  let _ ← onNull (kmalloc pool memfsInodeSize) fun w => w.kfree inodeSize
  modify fun w' => { w' with vfs := (w'.vfs.addInode
    { iIno := w.vfs.vfsInoNext, iMode := mode, iOp := none, iFop := some .memfs,
      iPrivate := some (.memfs { size := 0, capacity := 0, data := none }),
      iChildren := [] }).setDentryInode d w.vfs.nextInode }
  return w.vfs.nextInode

/-- `i_op->create` of a directory, if there is one. -/
def inodeCreate (pool : Pool) (dir d : DentryId) (mode : ℕ) : VfsM InodeId := do
  let inode ← deref fun w => w.vfs.inodeOf dir
  match inode.iOp with
  | some .memfs => memfsCreate pool d mode
  | _ => null

/-- The directory `vfs_create` finds for the last component of a path. -/
def createDir (pool : Pool) (base : DentryId) (rest : CStr) : VfsM DentryId :=
  if dirName rest = [] then pure base else vfsLookupFrom pool base (dirName rest)

/-- The directory in which `vfs_create` makes the last component of a path, if it is not there. -/
def createParent (pool : Pool) (base : DentryId) (rest : CStr) : VfsM DentryId := do
  check (baseName rest ≠ [])
  let dir ← createDir pool base rest
  absent (vfsLookupComponent pool dir (baseName rest))
  return dir

/-- `vfs_create`. -/
def vfsCreate (pool : Pool) (path : CStr) (mode : ℕ) : VfsM File := do
  check (path ≠ [])
  let w ← get
  let vfsRoot ← ofOption w.vfs.vfsRoot
  let base := (w.vfs.mountRoot path).getD vfsRoot
  let rest := w.vfs.mountRest path
  let (dir, d) ← withBlock pool (rest.length + 1) do
    let dir ← createParent pool base rest
    let d ← vfsNewDentry pool (baseName rest) dir
    return (dir, d)
  let i ← onNull (inodeCreate pool dir d mode) fun w => w.vfsFreeDentry d (baseName rest)
  newFile pool d i 0

end PokuOS
