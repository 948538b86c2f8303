import PokuOS.OpenFiles
import PokuOS.Opening

/-!
# What a task sees of the files

A task names its files by descriptors, and no other task has one of them. So a system call on files
is a function of the file system and of the open files of the task that makes it; which
`struct file`s these are, and what the others have open, makes no difference.

* `View` — the file system and the open files of one task, with the calls on it.
* `shows_syscallHandler` — **the calls of the machine are those of the view**, and leave the open
  files of the others as they are.
* `fileAt_runTable` — all other events do so too, except that `task_exit` closes files.
-/

namespace PokuOS

open Function Machine Option

/-! ## The calls -/

/-- The file system and the open files of a task. -/
structure View where
  /-- the file system -/
  vfs : Vfs
  /-- the file of each descriptor -/
  table : Fin fdMax → Option File

namespace View

/-- A descriptor gets a file, or loses it. -/
def set (v : View) (fd : Fin fdMax) (f : Option File) : View :=
  { v with table := Function.update v.table fd f }

/-- The first free descriptor. -/
def freeFd (v : View) : Option (Fin fdMax) :=
  (List.finRange fdMax).find? fun fd => decide (3 ≤ fd.val) && (v.table fd).isNone

/-- Open a file, if there is a descriptor for it. -/
def install (v : View) (f : File) : ℤ × View :=
  match v.freeFd with
  | none => (-eNomem, v)
  | some fd => (fd.val, v.set fd (some f))

/-- `SYS_OPEN`. -/
def openFile (v : View) (pool : Pool) (root : CStr) (path : Option CStr) (flags mode : ℕ) :
    Option (ℤ × View) :=
  match path with
  | none => some (-eInval, v)
  | some path => do
    let (f, w) ← sysOpenFile pool root (copyUserPath path) flags mode v.vfs.enter
    match f with
    | none => return (-eNoent, { v with vfs := w.vfs })
    | some f => return { v with vfs := w.vfs }.install f

/-- The file of a descriptor. -/
def entry (v : View) (fd : ℤ) : Option (Fin fdMax × File) :=
  if h : 3 ≤ fd ∧ fd.toNat < fdMax then
    (v.table ⟨fd.toNat, fd_lt h⟩).map fun f => (⟨fd.toNat, fd_lt h⟩, f)
  else none

/-- `SYS_CLOSE`. -/
def close (v : View) (fd : ℤ) : ℤ × View :=
  match v.entry fd with
  | none => (-eInval, v)
  | some (fd, _) => (0, v.set fd none)

/-- A read has returned. -/
def readDone (v : View) (fd : Fin fdMax) (f : File) : Option (ℕ × Option ℕ) → ℤ × View
  | none => (-1, v)
  | some (total, lastPgoff) =>
    (ssize total, v.set fd (some { f with fPos := advance f.fPos total, lastPgoff := lastPgoff }))

/-- A file is read. -/
def readFile (v : View) (dev : Device) (fd : Fin fdMax) (f : File) (len : ℕ) :
    Option (ℤ × View) := do
  let dentry ← v.vfs.dentry f.fDentry
  match dentry.dInode with
  | none => return (-1, v)
  | some i => do
    let inode ← v.vfs.inode i
    (Machine.readFile dev inode f len).map (v.readDone fd f)

/-- `SYS_READ`. -/
def read (v : View) (dev : Device) (fd : ℤ) (len : ℕ) (valid : Bool) : Option (ℤ × View) :=
  if fd = 0 then some (if !valid then -eInval else if dev.key then 1 else 0, v)
  else
    match v.entry fd with
    | none => some (-eInval, v)
    | some (fd, f) => if !valid then some (-eInval, v) else v.readFile dev fd f len

/-- A write has returned. -/
def writeDone (v : View) (fd : Fin fdMax) (f : File) (i : InodeId) (buf : List UInt8) :
    Option MemfsInode → ℤ × View
  | none => (-1, v)
  | some min =>
    (ssize buf.length, { v with vfs := v.vfs.setMemfsInode i min }.set fd
      (some { f with fPos := advance f.fPos buf.length }))

/-- A `memfs` file is written to. -/
def writeFile (v : View) (pool : Pool) (fd : Fin fdMax) (f : File) (buf : List UInt8) :
    Option (ℤ × View) := do
  let dentry ← v.vfs.dentry f.fDentry
  match dentry.dInode with
  | none => return (-1, v)
  | some i =>
    match v.vfs.memfsInode i with
    | none => return (-1, v)
    | some min => (memfsWrite (pool.give []) min f.fPos buf).map (v.writeDone fd f i buf)

/-- `SYS_WRITE`. -/
def write (v : View) (pool : Pool) (fd : ℤ) (buf : Option (List UInt8)) : Option (ℤ × View) :=
  if fd = 1 ∨ fd = 2 then some (if buf.isNone then -eInval else 0, v)
  else
    match v.entry fd, buf with
    | some (fd, f), some buf =>
      if f.fOp = some .memfs then v.writeFile pool fd f buf else some (-1, v)
    | _, _ => some (-eInval, v)

/-- A directory is listed. -/
def listDir (v : View) (valid : ℕ → ℕ → Bool) (buflen : ℕ) (d : DentryId) : Option ℤ := do
  let dentry ← v.vfs.dentry d
  match dentry.dInode with
  | none => return -eNoent
  | some i => do
    let inode ← v.vfs.inode i
    if inode.iMode &&& sIfdir = 0 then return -eNotdir
    else v.vfs.listNames valid buflen 0 inode.iChildren

/-- `SYS_LS`. -/
def ls (v : View) (pool : Pool) (root : CStr) (path : Option CStr) (valid : ℕ → ℕ → Bool)
    (buflen : ℕ) : Option ℤ :=
  match path with
  | none => some (-eInval)
  | some path => do
    let (d, _) ← sysLsLookup pool root (copyUserPath path) v.vfs.enter
    match d with
    | none => return -eNoent
    | some d => v.listDir valid buflen d

/-- A call that has passed the gate, by a task with this root. -/
def perform (v : View) (pool : Pool) (root : CStr) : FileCall → Option (ℤ × View)
  | .open path flags mode => v.openFile pool root path flags mode
  | .close fd => some (v.close fd)
  | .read dev fd len valid => v.read dev fd len valid
  | .write fd buf => v.write pool fd buf
  | .ls path valid buflen => (v.ls pool root path valid buflen).map fun r => (r, v)

/-- A call by a task with this root and these capabilities. -/
def syscall (v : View) (pool : Pool) (root : CStr) (caps : BitVec 32) (call : FileCall) :
    Option (ℤ × View) :=
  if permitted caps call.nr then v.perform pool root call else some (-ePerm, v)

end View

/-! ## The machine -/

namespace Machine

variable {m m' : Machine} {t : TaskPtr} {fd : Fin fdMax} {id : FileId}

/-- The file of a descriptor of a task. -/
def fileAt (m : Machine) (t : TaskPtr) (fd : Fin fdMax) : Option File :=
  (m.fdTable t fd).bind m.file

/-- What a task sees. -/
def view (m : Machine) (t : TaskPtr) : View := ⟨m.vfs, m.fileAt t⟩

/-- One descriptor of one task has a file now, or has lost it. -/
def Puts (t : TaskPtr) (fd : Fin fdMax) (f : Option File) (m m' : Machine) : Prop :=
  ∀ t' fd', m'.fileAt t' fd' = if t' = t ∧ fd' = fd then f else m.fileAt t' fd'

theorem fileAt_some {f : File} (hid : m.fdTable t fd = some id) (hf : m.file id = some f) :
    m.fileAt t fd = some f := by
  rw [fileAt, hid]
  exact hf

section

variable (h : m.Accounted) (hid : m.fdTable t fd = some id)
include h hid

/-- A file of the table is there. -/
theorem Accounted.exists_file : ∃ f, m.file id = some f :=
  isSome_iff_exists.mp (h.alloc.mpr (h.held hid))

/-- The other descriptors do not have this file. -/
theorem Accounted.bind_update {t' : TaskPtr} {fd' : Fin fdMax} (hp : ¬(t' = t ∧ fd' = fd))
    (f : Option File) : (m.fdTable t' fd').bind (update m.file id f) = m.fileAt t' fd' := by
  cases hid' : m.fdTable t' fd' with
  | none => rw [fileAt, hid']; rfl
  | some id' =>
    rw [fileAt, hid']
    refine update_of_ne ?_ ..
    rintro rfl
    exact hp (h.inj hid hid')

/-- A file is changed in its place only. -/
theorem Accounted.puts_setFile (v : Vfs) (f : File) :
    Puts t fd (some f) m ({ m with vfs := v }.setFile id f) := by
  intro t' fd'
  split
  · rename_i hp
    rw [hp.1, hp.2]
    exact fileAt_some hid (update_self ..)
  · rename_i hp
    exact h.bind_update hid hp _

theorem Accounted.puts_close : Puts t fd none m ((m.vfsClose id).setFd t fd none) := by
  intro t' fd'
  rw [fileAt, fdTable_setFd]
  split
  · rfl
  · rename_i hp
    exact h.bind_update hid hp _

end

/-- What is allocated next is in no table. -/
theorem Accounted.file_addFile (h : m.Accounted) (f : File) (hid : m.fdTable t fd = some id) :
    (m.addFile f).file id = m.file id :=
  update_of_ne (Nat.ne_of_lt (h.held hid).1) ..

theorem Accounted.puts_install (h : m.Accounted) (t : TaskPtr) (fd : Fin fdMax) (f : File) :
    Puts t fd (some f) m ((m.addFile f).setFd t fd (some m.nextFile)) := by
  intro t' fd'
  rw [fileAt, fdTable_setFd]
  split
  · exact update_self ..
  · change (m.fdTable t' fd').bind (m.addFile f).file = (m.fdTable t' fd').bind m.file
    cases hid : m.fdTable t' fd' with
    | none => rfl
    | some id => exact h.file_addFile f hid

/-- A file that is closed as soon as it is open is in no table. -/
theorem Accounted.fileAt_addClosed (h : m.Accounted) (f : File) (t : TaskPtr) :
    ((m.addFile f).vfsClose m.nextFile).fileAt t = m.fileAt t := by
  funext fd
  change (m.fdTable t fd).bind ((m.addFile f).vfsClose m.nextFile).file =
    (m.fdTable t fd).bind m.file
  cases hid : m.fdTable t fd with
  | none => rfl
  | some id =>
    refine Eq.trans ?_ (h.file_addFile f hid)
    exact update_of_ne (Nat.ne_of_lt (h.held hid).1) ..

variable {f : Option File}

theorem Puts.view (h : Puts t fd f m m') :
    m'.view t = { m.view t with vfs := m'.vfs }.set fd f := by
  have htable : m'.fileAt t = update (m.fileAt t) fd f := by
    funext fd'
    rw [h t fd', update_apply]
    simp only [true_and]
  rw [Machine.view, htable]
  rfl

theorem Puts.others (h : Puts t fd f m m') {t' : TaskPtr} (ht : t' ≠ t) :
    m'.fileAt t' = m.fileAt t' := by
  funext fd'
  exact (h t' fd').trans (if_neg fun hp => ht hp.1)

/-! ## Its calls -/

/-- A call of the machine is one of the view: the reply is the same, what the running task sees
afterwards too, and the others have the files open that they had. -/
structure Shows (m : Machine) (x : Option (ℤ × Machine)) (y : Option (ℤ × View)) : Prop where
  /-- the running task -/
  view : x.map (fun r => (r.1, r.2.view m.current)) = y
  /-- the others -/
  others : Post x fun r => ∀ t, t ≠ m.current → r.2.fileAt t = m.fileAt t

theorem Shows.same (m : Machine) (r : ℤ) : Shows m (some (r, m)) (some (r, m.view m.current)) :=
  ⟨rfl, .some fun _ _ => rfl⟩

/-- **The rule for two blocks that start with the same statement.** -/
theorem Shows.bind {α : Type} (x : Option α) {f : α → Option (ℤ × Machine)}
    {g : α → Option (ℤ × View)} (h : ∀ a, Shows m (f a) (g a)) : Shows m (x.bind f) (x.bind g) := by
  cases x with
  | none => exact ⟨rfl, .none⟩
  | some a => exact h a

theorem Shows.map {α : Type} (x : Option α) {f : α → ℤ × Machine} {g : α → ℤ × View}
    (h : ∀ a, Shows m (some (f a)) (some (g a))) : Shows m (x.map f) (x.map g) := by
  rw [map_eq_bind, map_eq_bind]
  exact .bind x h

theorem Puts.shows (h : Puts m.current fd f m m') (r : ℤ) :
    Shows m (some (r, m')) (some (r, { m.view m.current with vfs := m'.vfs }.set fd f)) :=
  ⟨congrArg some (Prod.ext rfl h.view), .some fun _ => h.others⟩

/-- A descriptor that is free for the task is free in its view. -/
theorem Accounted.freeFd_view (h : m.Accounted) :
    (m.view m.current).freeFd = freeFd (m.fdTable m.current) := by
  have hnone : ∀ fd, (m.fileAt m.current fd).isNone = (m.fdTable m.current fd).isNone := by
    intro fd
    cases hid : m.fdTable m.current fd with
    | none => rw [fileAt, hid]; rfl
    | some id =>
      obtain ⟨f, hf⟩ := h.exists_file hid
      rw [fileAt_some hid hf]
      rfl
  simp only [View.freeFd, freeFd, view, hnone]

/-- A descriptor has no file, or one that is there. -/
theorem Accounted.entry_cases (h : m.Accounted) (fd : ℤ) :
    (m.entry fd = none ∧ (m.view m.current).entry fd = none) ∨
      ∃ i id f, m.entry fd = some (i, id) ∧ m.fdTable m.current i = some id ∧
        m.file id = some f ∧ (m.view m.current).entry fd = some (i, f) := by
  simp only [entry, View.entry, view]
  split
  · rename_i hfd
    cases hid : m.fdTable m.current ⟨fd.toNat, hfd.2⟩ with
    | none => exact .inl ⟨rfl, by rw [fileAt, hid]; rfl⟩
    | some id =>
      obtain ⟨f, hf⟩ := h.exists_file hid
      exact .inr ⟨_, id, f, rfl, hid, hf, by rw [fileAt_some hid hf]; rfl⟩
  · exact .inl ⟨rfl, rfl⟩

theorem shows_sysOpenFn (h : m.Accounted) (pool : Pool) (path : Option CStr) (flags mode : ℕ) :
    Shows m (m.sysOpenFn pool path flags mode)
      ((m.view m.current).openFile pool m.root path flags mode) := by
  cases path with
  | none => exact .same m _
  | some path =>
    refine Shows.bind (sysOpenFile pool m.root (copyUserPath path) flags mode m.vfs.enter) ?_
    rintro ⟨f, w⟩
    have hvfs : Accounted { m with vfs := w.vfs } := h.same rfl (fun _ => rfl) rfl rfl
    cases f with
    | none => exact ⟨rfl, .some fun _ _ => rfl⟩
    | some f =>
      have hfree : ({ m.view m.current with vfs := w.vfs } : View).freeFd =
          freeFd (m.fdTable m.current) := h.freeFd_view
      change Shows m (some (installFile _ _)) (some (View.install _ _))
      simp only [installFile, View.install, hfree]
      change Shows m (some (match freeFd (m.fdTable m.current) with | none => _ | some fd => _)) _
      cases freeFd (m.fdTable m.current) with
      | none =>
        refine ⟨?_, .some fun t _ => hvfs.fileAt_addClosed f t⟩
        exact congrArg (fun table => some (-(eNomem : ℤ), View.mk w.vfs table))
          (hvfs.fileAt_addClosed f m.current)
      | some fd => exact (hvfs.puts_install m.current fd f).shows fd.val

theorem shows_sysCloseFn (h : m.Accounted) (fd : ℤ) :
    Shows m (some (m.sysCloseFn fd)) (some ((m.view m.current).close fd)) := by
  rcases h.entry_cases fd with ⟨hnone, hview⟩ | ⟨i, id, f, hentry, hid, -, hview⟩
  · simp only [sysCloseFn, View.close, hnone, hview]
    exact .same m _
  · simp only [sysCloseFn, View.close, hentry, hview]
    exact (h.puts_close hid).shows 0

theorem shows_vfsRead (h : m.Accounted) {f : File} (hid : m.fdTable m.current fd = some id)
    (hf : m.file id = some f) (dev : Device) (len : ℕ) :
    Shows m (m.vfsRead dev id len) ((m.view m.current).readFile dev fd f len) := by
  simp only [vfsRead, View.readFile, hf, view]
  refine Shows.bind (m.vfs.dentry f.fDentry) fun dentry => ?_
  cases dentry.dInode with
  | none => exact .same m _
  | some i =>
    refine Shows.bind (m.vfs.inode i) fun inode => Shows.map _ fun done => ?_
    cases done with
    | none => exact .same m _
    | some done => exact (h.puts_setFile hid m.vfs _).shows _

theorem shows_sysReadFn (h : m.Accounted) (dev : Device) (fd : ℤ) (len : ℕ) (valid : Bool) :
    Shows m (m.sysReadFn dev fd len valid) ((m.view m.current).read dev fd len valid) := by
  unfold sysReadFn View.read
  by_cases hzero : fd = 0
  · rw [if_pos hzero, if_pos hzero]
    exact .same m _
  rw [if_neg hzero, if_neg hzero]
  rcases h.entry_cases fd with ⟨hnone, hview⟩ | ⟨i, id, f, hentry, hid, hf, hview⟩
  · simp only [hnone, hview]
    exact .same m _
  · simp only [hentry, hview]
    cases valid with
    | false => exact .same m _
    | true => exact shows_vfsRead h hid hf dev len

theorem shows_writeFile (h : m.Accounted) {f : File} (hid : m.fdTable m.current fd = some id)
    (pool : Pool) (buf : List UInt8) :
    Shows m (m.writeFile pool id f buf) ((m.view m.current).writeFile pool fd f buf) := by
  simp only [writeFile, View.writeFile, view]
  refine Shows.bind (m.vfs.dentry f.fDentry) fun dentry => ?_
  cases dentry.dInode with
  | none => exact .same m _
  | some i =>
    simp only
    cases m.vfs.memfsInode i with
    | none => exact .same m _
    | some min =>
      refine Shows.map _ fun done => ?_
      cases done with
      | none => exact .same m _
      | some done => exact (h.puts_setFile hid _ _).shows _

theorem shows_sysWriteFn (h : m.Accounted) (pool : Pool) (fd : ℤ) (buf : Option (List UInt8)) :
    Shows m (m.sysWriteFn pool fd buf) ((m.view m.current).write pool fd buf) := by
  unfold sysWriteFn View.write
  by_cases hout : fd = 1 ∨ fd = 2
  · rw [if_pos hout, if_pos hout]
    exact .same m _
  rw [if_neg hout, if_neg hout]
  rcases h.entry_cases fd with ⟨hnone, hview⟩ | ⟨i, id, f, hentry, hid, hf, hview⟩
  · simp only [hnone, hview]
    exact .same m _
  · simp only [hentry, hview]
    cases buf with
    | none => exact .same m _
    | some buf =>
      simp only [vfsWrite, hf]
      by_cases hop : f.fOp = some .memfs
      · rw [if_pos hop]
        change Shows m (ite ..) _
        rw [if_pos hop]
        exact shows_writeFile h hid pool buf
      · rw [if_neg hop]
        change Shows m (if f.fOp = some .memfs then _ else _) _
        rw [if_neg hop]
        exact .same m _

/-- **A call of the machine is one of the view.** -/
theorem shows_syscallHandler (h : m.Accounted) (pool : Pool) (call : FileCall) :
    Shows m (m.syscallHandler pool call) ((m.view m.current).syscall pool m.root
      (m.kernel.sched.task m.current).caps call) := by
  unfold syscallHandler View.syscall
  by_cases hperm : permitted (m.kernel.sched.task m.current).caps call.nr = true
  swap
  · rw [if_neg hperm, if_neg hperm]
    exact .same m _
  rw [if_pos hperm, if_pos hperm]
  cases call with
  | «open» path flags mode => exact shows_sysOpenFn h pool path flags mode
  | close fd => exact shows_sysCloseFn h fd
  | read dev fd len valid => exact shows_sysReadFn h dev fd len valid
  | write fd buf => exact shows_sysWriteFn h pool fd buf
  | ls path valid buflen =>
    exact Shows.map (m.sysLsFn pool path valid buflen) (Shows.same m)

/-! ## Other events -/

/-- A program is opened to be read, so that nothing is left of it. -/
theorem view_readProgram (h : m.Accounted) (pool : Pool) (path : CStr) :
    Post (m.readProgram pool path) fun m' => m'.view = m.view := by
  intro m' hm'
  obtain ⟨⟨f, w⟩, hopen, hm'⟩ := bind_eq_some_iff.mp hm'
  have hw : w.vfs = m.vfs :=
    vfs_vfsOpen (w := m.vfs.enter) (fun htrunc => absurd (Nat.zero_and oTrunc) htrunc) hopen
  have hvfs : ({ m with vfs := w.vfs } : Machine) = m := by rw [hw]
  simp only [hvfs] at hm'
  funext t
  cases f with
  | none =>
    cases hm'
    rfl
  | some f =>
    cases hm'
    exact congrArg (View.mk m.vfs) (h.fileAt_addClosed f t)

theorem view_programs (h : m.Owns) (pool : Pool) (l : List (CStr × FileRead)) :
    Post (l.foldlM (fun m p => m.readProgram pool p.1) m) fun m' => m'.view = m.view := by
  refine Post.mono (Post.foldlM (P := fun m' : Machine => m'.Accounted ∧ m'.view = m.view)
    (fun m1 p h1 => ?_) l ⟨h.accounted, rfl⟩) fun _ => And.right
  refine ((accounted_readProgram h1.1 pool p.1).and (view_readProgram h1.1 pool p.1)).mono ?_
  rintro m2 ⟨⟨haccounted, -⟩, hview⟩
  exact ⟨haccounted, hview.trans h1.2⟩

/-- One round of the loop of `task_exit`. -/
theorem Accounted.puts_closeFd (h : m.Accounted) (t : TaskPtr) (fd : Fin fdMax) :
    Puts t fd none m (closeFd t m fd) := by
  unfold closeFd
  split
  · rename_i hnone
    intro t' fd'
    split
    · rename_i hp
      rw [hp.1, hp.2, fileAt, hnone]
      rfl
    · rfl
  · rename_i id hid
    exact h.puts_close hid

/-- The loop of `task_exit` closes no file of another task. -/
theorem Accounted.others_foldl (h : m.Accounted) (fds : List (Fin fdMax)) {t' : TaskPtr}
    (ht : t' ≠ t) : (fds.foldl (closeFd t) m).fileAt t' = m.fileAt t' := by
  induction fds generalizing m with
  | nil => rfl
  | cons fd fds ih =>
    have hstep : (closeFd t m fd).Accounted := (emptied_foldl h t [fd]).accounted
    exact (ih hstep).trans ((h.puts_closeFd t fd).others ht)

theorem vfs_foldl (fds : List (Fin fdMax)) : (fds.foldl (closeFd t) m).vfs = m.vfs := by
  induction fds generalizing m with
  | nil => rfl
  | cons fd fds ih =>
    refine (ih (m := closeFd t m fd)).trans ?_
    unfold closeFd
    split
    · rfl
    · rfl

theorem Owns.fileAt_endTask (h : m.Owns) (e : TableEvent) (t : TaskPtr) (fd : Fin fdMax) :
    (m.endTask e).fileAt t fd = if m.kernel.dead e = some t then none else m.fileAt t fd := by
  by_cases hends : e.ends m.kernel = true
  · have hdead : m.kernel.dead e = some m.current := if_pos hends
    by_cases ht : t = m.current
    · rw [hdead, if_pos (congrArg some ht.symm), fileAt, (h.endTask e).2.2 t, hdead,
        if_pos (congrArg some ht.symm)]
      rfl
    · rw [hdead, if_neg (fun hsome => ht (some.inj hsome).symm), Machine.endTask,
        if_pos hends]
      exact congrFun (h.accounted.others_foldl _ ht) fd
  · rw [Machine.endTask, if_neg hends, Kernel.dead, if_neg hends, if_neg (some_ne_none _).symm]

/-- **An event of the kernel changes no file, and closes those of the task that ends only.** -/
theorem fileAt_runTable {L : FdLayout} (h : m.Owns) {e : TableEvent}
    (hallowed : (tableSystem L.toLayout).allowed m.kernel e) (himg : e.ImagesOk) (pool : Pool) :
    Post (m.runTable L pool e) fun m' => m'.vfs = m.vfs ∧
      (tableSystem L.toLayout).step m.kernel e = some m'.kernel ∧
      ∀ t fd, m'.fileAt t fd = if m.kernel.dead e = some t then none else m.fileAt t fd := by
  refine ((h.programs pool (e.programs m.kernel)).and (view_programs h pool _)).bind ?_
  rintro m1 ⟨⟨h1, hkernel1, -⟩, hview⟩
  rw [← hkernel1] at hallowed ⊢
  obtain ⟨-, hkernel, -⟩ := h1.endTask e
  have hvfs : (m1.endTask e).vfs = m1.vfs := by
    unfold endTask
    split
    · exact vfs_foldl _
    · rfl
  intro m' hm'
  obtain ⟨k, hk, hm'⟩ := bind_eq_some_iff.mp hm'
  cases hm'
  rw [hkernel] at hk
  have hgoing := (Kernel.going_step h1.fits hallowed himg k hk).2
  refine ⟨hvfs.trans (congrArg (fun v => (v m1.current).vfs) hview), hk, fun t fd => ?_⟩
  have htable : m1.fileAt t fd = m.fileAt t fd := congrArg (fun v => (v t).table fd) hview
  rw [← htable, ← h1.fileAt_endTask e t fd, fileAt, h1.fdTable_setKernel L himg hgoing]
  rfl

end Machine

end PokuOS
