import PokuOS.Chroot
import PokuOS.Enduring
import PokuOS.Memfs
import PokuOS.Tarfs

/-!
# File descriptors

The calls of `kernel/syscall.c` on files, and what `task_exit`, `sys_exec` and
`spawn_user_process` do with files, over the kernel and the file system.

A `struct file` is named by a number that is never used again, and how often `vfs_close` has been
called for it is counted. `fd_table` is a part of `task_t`: it is cleared with the slot, and lies
where an image that is not in order may write. What the page cache and the keyboard give is an
argument here, as is the heap.
-/

namespace PokuOS

open Function

/-! ## State -/

/-- `FD_MAX`. -/
abbrev fdMax : ℕ := 8

instance : NeZero fdMax := ⟨by decide⟩

theorem fd_lt {fd : ℤ} (h : 3 ≤ fd ∧ fd.toNat < fdMax) : fd.toNat < fdMax := h.2

/-- A `struct file *` that is not `NULL`. -/
abbrev FileId : Type := ℕ

/-- `fd_table`. -/
abbrev FdTable : Type := Fin fdMax → Option FileId

/-- A table after `memset`. -/
def FdTable.empty : FdTable := fun _ => none

/-- How the process table lies in memory, with the `fd_table`s. -/
structure FdLayout extends Layout where
  /-- the tables once memory has changed from the first to the second -/
  reloadFds : Mem → Mem → (TaskPtr → FdTable) → TaskPtr → FdTable
  /-- they lie outside the user range -/
  reloadFds_same : ∀ {m m' : Mem} (fds : TaskPtr → FdTable), Mem.SameOff userRange m m' →
    reloadFds m m' fds = fds

/-- The kernel and its files. -/
structure Machine where
  /-- tasks and page tables -/
  kernel : Kernel
  /-- the file system -/
  vfs : Vfs
  /-- `fd_table` of each task -/
  fdTable : TaskPtr → FdTable
  /-- the `struct file`s that have not been freed -/
  file : FileId → Option File
  /-- the next to be allocated -/
  nextFile : FileId
  /-- how often `vfs_close` has been called for each -/
  closes : FileId → ℕ

/-- What a read finds outside the file system. -/
structure Device where
  /-- the disk -/
  disk : Mem
  /-- the page cache -/
  pc : PageCache
  /-- the memory at `buf` -/
  buf : Mem
  /-- `getchar` has a character -/
  key : Bool

namespace Machine

/-- The running task. -/
abbrev current (m : Machine) : TaskPtr := m.kernel.sched.currentTask

/-- `root_path` of the running task. -/
def root (m : Machine) : CStr := (m.kernel.sched.task m.current).rootPath

/-- A `struct file` is allocated. -/
def addFile (m : Machine) (f : File) : Machine :=
  { m with file := update m.file m.nextFile (some f), nextFile := m.nextFile + 1 }

/-- A `struct file` is changed. -/
def setFile (m : Machine) (id : FileId) (f : File) : Machine :=
  { m with file := update m.file id (some f) }

/-- `fd_table[fd] = …`. -/
def setFd (m : Machine) (t : TaskPtr) (fd : Fin fdMax) (id : Option FileId) : Machine :=
  { m with fdTable := update m.fdTable t (update (m.fdTable t) fd id) }

/-- `vfs_close`. No `release` does more than to free memory of the file. -/
def vfsClose (m : Machine) (id : FileId) : Machine :=
  { m with file := update m.file id none,
           closes := update m.closes id (m.closes id + 1) }

/-! ## System calls -/

/-- The first free index of a table, from 3 on. -/
def freeFd (table : FdTable) : Option (Fin fdMax) :=
  (List.finRange fdMax).find? fun fd => decide (3 ≤ fd.val) && (table fd).isNone

/-- The file of `sys_open_fn` is put into the table, or closed if that is full. -/
def installFile (m : Machine) (id : FileId) : ℤ × Machine :=
  match freeFd (m.fdTable m.current) with
  | none => (-eNomem, m.vfsClose id)
  | some fd => (fd.val, m.setFd m.current fd (some id))

/-- `sys_open_fn`; no path is one that cannot be copied. -/
def sysOpenFn (m : Machine) (pool : Pool) (path : Option CStr) (flags mode : ℕ) :
    Option (ℤ × Machine) :=
  match path with
  | none => some (-eInval, m)
  | some path => do
    let (f, w) ← sysOpenFile pool m.root (copyUserPath path) flags mode m.vfs.enter
    match f with
    | none => return (-eNoent, { m with vfs := w.vfs })
    | some f => return (({ m with vfs := w.vfs }.addFile f).installFile m.nextFile)

/-- The index and the file of a descriptor of the running task. -/
def entry (m : Machine) (fd : ℤ) : Option (Fin fdMax × FileId) :=
  if h : 3 ≤ fd ∧ fd.toNat < fdMax then
    (m.fdTable m.current ⟨fd.toNat, fd_lt h⟩).map fun id => (⟨fd.toNat, fd_lt h⟩, id)
  else none

/-- `sys_close_fn`. -/
def sysCloseFn (m : Machine) (fd : ℤ) : ℤ × Machine :=
  match m.entry fd with
  | none => (-eInval, m)
  | some (fd, id) => (0, (m.vfsClose id).setFd m.current fd none)

/-- `f_op->read`, where there is one: how much it has read, and `last_pgoff` then. -/
def readFile (dev : Device) (inode : Inode) (f : File) (len : ℕ) :
    Option (Option (ℕ × Option ℕ)) :=
  match f.fOp, inode.iPrivate with
  | some .memfs, some (.memfs min) =>
    (memfsRead min f.fPos len).map (Option.map fun bytes => (bytes.length, f.lastPgoff))
  | some .tarfs, some (.tarfs offset size) =>
    let r := tarfsRead dev.disk ⟨0, inode.iIno, offset, size⟩ dev.pc f.lastPgoff f.fPos len dev.buf
    some (some (r.total, r.lastPgoff))
  | some .ramfs, some (.ramfs size (some img)) =>
    some (some ((ramfsRead img 0 size f.fPos len).length, f.lastPgoff))
  | _, _ => some none

/-- A read has returned. -/
def readDone (m : Machine) (id : FileId) (f : File) : Option (ℕ × Option ℕ) → ℤ × Machine
  | none => (-1, m)
  | some (total, lastPgoff) =>
    (ssize total, m.setFile id { f with fPos := advance f.fPos total, lastPgoff := lastPgoff })

/-- `vfs_read`. -/
def vfsRead (m : Machine) (dev : Device) (id : FileId) (len : ℕ) : Option (ℤ × Machine) := do
  let f ← m.file id
  let dentry ← m.vfs.dentry f.fDentry
  match dentry.dInode with
  | none => return (-1, m)
  | some i => do
    let inode ← m.vfs.inode i
    (readFile dev inode f len).map (m.readDone id f)

/-- `sys_read_fn`; `valid` says whether the buffer is the task's. -/
def sysReadFn (m : Machine) (dev : Device) (fd : ℤ) (len : ℕ) (valid : Bool) :
    Option (ℤ × Machine) :=
  if fd = 0 then some (if !valid then -eInval else if dev.key then 1 else 0, m)
  else
    match m.entry fd with
    | none => some (-eInval, m)
    | some (_, id) => if !valid then some (-eInval, m) else m.vfsRead dev id len

/-- A write has returned. -/
def writeDone (m : Machine) (id : FileId) (f : File) (i : InodeId) (buf : List UInt8) :
    Option MemfsInode → ℤ × Machine
  | none => (-1, m)
  | some min =>
    (ssize buf.length, { m with vfs := m.vfs.setMemfsInode i min }.setFile id
      { f with fPos := advance f.fPos buf.length })

/-- `memfs_write` of a file. -/
def writeFile (m : Machine) (pool : Pool) (id : FileId) (f : File) (buf : List UInt8) :
    Option (ℤ × Machine) := do
  let dentry ← m.vfs.dentry f.fDentry
  match dentry.dInode with
  | none => return (-1, m)
  | some i =>
    match m.vfs.memfsInode i with
    | none => return (-1, m)
    | some min => (memfsWrite (pool.give []) min f.fPos buf).map (m.writeDone id f i buf)

/-- `vfs_write`; only `memfs` has a `write`. -/
def vfsWrite (m : Machine) (pool : Pool) (id : FileId) (buf : List UInt8) :
    Option (ℤ × Machine) := do
  let f ← m.file id
  if f.fOp = some .memfs then m.writeFile pool id f buf else return (-1, m)

/-- `sys_write_fn`; no bytes are those of a buffer that is not the task's. -/
def sysWriteFn (m : Machine) (pool : Pool) (fd : ℤ) (buf : Option (List UInt8)) :
    Option (ℤ × Machine) :=
  if fd = 1 ∨ fd = 2 then some (if buf.isNone then -eInval else 0, m)
  else
    match m.entry fd, buf with
    | some (_, id), some buf => m.vfsWrite pool id buf
    | _, _ => some (-eInval, m)

end Machine

/-- The loop of `sys_ls_fn`; `valid` is `user_range_valid` at an offset of the buffer. -/
def Vfs.listNames (v : Vfs) (valid : ℕ → ℕ → Bool) (buflen off : ℕ) : List DentryId → Option ℤ
  | [] => some (ssize off)
  | child :: children => do
    let dentry ← v.dentry child
    let n := dentry.dName.length
    if buflen < (off + n + 1) % 2 ^ 32 then return ssize off
    else if !valid off (n + 1) then return -eInval
    else v.listNames valid buflen ((off + n + 1) % 2 ^ 32) children

namespace Machine

/-- `sys_ls_fn` of a directory. -/
def listDir (m : Machine) (valid : ℕ → ℕ → Bool) (buflen : ℕ) (d : DentryId) : Option ℤ := do
  let dentry ← m.vfs.dentry d
  match dentry.dInode with
  | none => return -eNoent
  | some i => do
    let inode ← m.vfs.inode i
    if inode.iMode &&& sIfdir = 0 then return -eNotdir
    else m.vfs.listNames valid buflen 0 inode.iChildren

/-- `sys_ls_fn`. -/
def sysLsFn (m : Machine) (pool : Pool) (path : Option CStr) (valid : ℕ → ℕ → Bool)
    (buflen : ℕ) : Option ℤ :=
  match path with
  | none => some (-eInval)
  | some path => do
    let (d, _) ← sysLsLookup pool m.root (copyUserPath path) m.vfs.enter
    match d with
    | none => return -eNoent
    | some d => m.listDir valid buflen d

end Machine

/-- A system call on files, with its arguments. -/
inductive FileCall where
  /-- `SYS_OPEN` -/
  | open (path : Option CStr) (flags mode : ℕ)
  /-- `SYS_CLOSE` -/
  | close (fd : ℤ)
  /-- `SYS_READ` -/
  | read (dev : Device) (fd : ℤ) (len : ℕ) (valid : Bool)
  /-- `SYS_WRITE` -/
  | write (fd : ℤ) (buf : Option (List UInt8))
  /-- `SYS_LS` -/
  | ls (path : Option CStr) (valid : ℕ → ℕ → Bool) (buflen : ℕ)

/-- The number of a call. -/
def FileCall.nr : FileCall → SyscallNr
  | .open _ _ _ => .open
  | .close _ => .close
  | .read _ _ _ _ => .read
  | .write _ _ => .write
  | .ls _ _ _ => .ls

namespace Machine

/-- A call that has passed the gate. -/
def perform (m : Machine) (pool : Pool) : FileCall → Option (ℤ × Machine)
  | .open path flags mode => m.sysOpenFn pool path flags mode
  | .close fd => some (m.sysCloseFn fd)
  | .read dev fd len valid => m.sysReadFn dev fd len valid
  | .write fd buf => m.sysWriteFn pool fd buf
  | .ls path valid buflen => (m.sysLsFn pool path valid buflen).map fun r => (r, m)

/-- `syscall_handler`. -/
def syscallHandler (m : Machine) (pool : Pool) (call : FileCall) : Option (ℤ × Machine) :=
  if permitted (m.kernel.sched.task m.current).caps call.nr then m.perform pool call
  else some (-ePerm, m)

/-! ## The other events -/

/-- One round of the loop of `task_exit` over the table. -/
def closeFd (t : TaskPtr) (m : Machine) (fd : Fin fdMax) : Machine :=
  match m.fdTable t fd with
  | none => m
  | some id => (m.vfsClose id).setFd t fd none

/-- `task_exit` closes the files of the running task. -/
def closeFiles (m : Machine) : Machine :=
  ((List.finRange fdMax).filter fun fd => decide (3 ≤ fd.val)).foldl (closeFd m.current) m

/-- A program is opened, read and closed. -/
def readProgram (pool : Pool) (m : Machine) (path : CStr) : Option Machine := do
  let (f, w) ← vfsOpen pool m.root path 0 m.vfs.enter
  match f with
  | none => return { m with vfs := w.vfs }
  | some f => return ({ m with vfs := w.vfs }.addFile f).vfsClose m.nextFile

end Machine

/-- The memory when `elf_load` has returned. -/
def Kernel.loadedMem (k : Kernel) (mem : Mem) (data : ℕ) : Mem :=
  match k.vm.pagingCreateTaskPd with
  | some (some pd, vm) => (elfLoad loaderFuel ⟨vm.loadCr3 pd, mem, []⟩ data).2.2.mem
  | _ => mem

/-- What is left of the `fd_table`s when a program has been loaded. -/
def FdLayout.load (L : FdLayout) (k : Kernel) (file : FileRead) (fds : TaskPtr → FdTable) :
    TaskPtr → FdTable :=
  match file with
  | .image mem data => L.reloadFds mem (k.loadedMem mem data) fds
  | _ => fds

namespace TableEvent

/-- An entry of the watchdog whose program is to be started. -/
def due (k : Kernel) (i : ℕ) : Option WdEntry :=
  k.sched.wdTable[i]?.filter fun e => e.active && e.spawnDue

/-- The programs that an event opens, with what reading them gives. -/
def programs (k : Kernel) : TableEvent → List (CStr × FileRead)
  | .kernel (.syscall (.exec (some path) _ file)) =>
    if permitted (k.sched.task k.sched.currentTask).caps .exec then
      [(resolvePath (k.sched.task k.sched.currentTask).rootPath path Kernel.resolvedSize, file)]
    else []
  | .kernel (.spawn path file _) => [(path, file)]
  | .check reads => (List.range k.sched.wdTable.length).filterMap fun i =>
    (due k i).map fun e => (e.path, (reads i).1)
  | _ => []

/-- What is left of the `fd_table`s when an event has loaded its programs. -/
def loadPrograms (L : FdLayout) (k : Kernel) (e : TableEvent) (fds : TaskPtr → FdTable) :
    TaskPtr → FdTable :=
  match e with
  | .check reads => ((List.range k.sched.wdTable.length).foldl (fun (k, fds) i =>
      ((k.checkEntry L.toLayout reads i).getD k,
        if (due k i).isSome then L.load k (reads i).1 fds else fds)) (k, fds)).2
  | e => (e.programs k).foldl (fun fds p => L.load k p.2 fds) fds

end TableEvent

namespace Machine

/-- The `fd_table`s after the kernel has gone from the first table to the second: a slot that was
free or is free has been cleared. -/
def clearTables (s s' : Sched) (fds : TaskPtr → FdTable) (t : TaskPtr) : FdTable :=
  if (s.task t).inUse ∧ (s'.task t).inUse then fds t else .empty

/-- The files a task that ends has open are closed. -/
def endTask (m : Machine) (e : TableEvent) : Machine :=
  if e.ends m.kernel then m.closeFiles else m

/-- The kernel has gone on. -/
def setKernel (L : FdLayout) (m : Machine) (e : TableEvent) (k : Kernel) : Machine :=
  { m with
    kernel := k
    fdTable := clearTables m.kernel.sched k.sched (e.loadPrograms L m.kernel m.fdTable) }

/-- An event of the kernel, with what it does to files. -/
def runTable (L : FdLayout) (m : Machine) (pool : Pool) (e : TableEvent) : Option Machine := do
  let m ← (e.programs m.kernel).foldlM (fun m p => m.readProgram pool p.1) m
  let m := m.endTask e
  let k ← (tableSystem L.toLayout).step m.kernel e
  return m.setKernel L e k

end Machine

/-! ## The system -/

/-- What happens to the machine. -/
inductive MachineEvent where
  /-- the running task makes a system call on files -/
  | call (call : FileCall) (pool : Pool)
  /-- anything else; the heap is for the programs it opens -/
  | table (e : TableEvent) (pool : Pool)

/-- Reading a program gives nothing exactly if it cannot be opened. -/
def Machine.Opens (m : Machine) (pool : Pool) (p : CStr × FileRead) : Prop :=
  p.2 = .missing ↔ (vfsOpen pool m.root p.1 0 m.vfs.enter).any (fun r => r.1.isNone) = true

/-- The machine from boot on, when the file systems have been mounted. -/
def machineSystem (L : FdLayout) : System Machine MachineEvent where
  init m := (tableSystem L.toLayout).init m.kernel ∧ m.fdTable = (fun _ => .empty) ∧
    m.file = (fun _ => none) ∧ m.nextFile = 0 ∧ m.closes = fun _ => 0
  allowed m
    | .call _ _ => m.current ≠ .idle
    | .table e pool =>
      (tableSystem L.toLayout).allowed m.kernel e ∧ ∀ p ∈ e.programs m.kernel, m.Opens pool p
  step m
    | .call call pool => (m.syscallHandler pool call).map Prod.snd
    | .table e pool => m.runTable L pool e

end PokuOS
