import PokuOS.FdTable

/-!
# Who owns an open file

Every `struct file` is in one place of one `fd_table` until it is closed, and it is closed once:
`sys_open_fn` puts it there or closes it, `sys_close_fn` and `task_exit` take it out as they close
it, and nothing copies it. The place is lost if the table is cleared with the file in it, or
overwritten. The first happens to no task that has not ended; the second is what an image that is
not in order can do.

* `Accounted` — files, places and calls of `vfs_close`, over the single writes.
* `files_owned` — **files are owned** in every run whose images are in order.
* `file_lost` — an image that is not.
-/

namespace PokuOS

open Function List Option Kernel Machine

variable {t : TaskPtr} {fd : Fin fdMax} {id : FileId}

namespace Machine

/-! ## Single writes -/

/-- **Every file is in one place, or has been closed once.** -/
structure Accounted (m : Machine) : Prop where
  /-- what is in a table has been allocated, and has not been closed -/
  held : ∀ {t fd id}, m.fdTable t fd = some id → id < m.nextFile ∧ m.closes id = 0
  /-- indices are 3 at least -/
  low : ∀ {t fd id}, m.fdTable t fd = some id → 3 ≤ fd.val
  /-- no file is in two places -/
  inj : ∀ {t fd t' fd' id}, m.fdTable t fd = some id → m.fdTable t' fd' = some id →
    t' = t ∧ fd' = fd
  /-- every file is in a place, or closed -/
  placed : ∀ {id}, id < m.nextFile →
    m.closes id = 0 ∧ (∃ t fd, m.fdTable t fd = some id) ∨ m.closes id = 1
  /-- nothing is closed that has not been allocated -/
  fresh : ∀ {id}, m.nextFile ≤ id → m.closes id = 0
  /-- the files that have not been freed -/
  alloc : ∀ {id}, (m.file id).isSome = true ↔ id < m.nextFile ∧ m.closes id = 0

variable {m m' : Machine}

theorem fdTable_setFd (m : Machine) (t t' : TaskPtr) (fd fd' : Fin fdMax) (id : Option FileId) :
    (m.setFd t fd id).fdTable t' fd' = if t' = t ∧ fd' = fd then id else m.fdTable t' fd' := by
  by_cases ht : t' = t
  · subst ht
    by_cases hfd : fd' = fd
    · simp [setFd, hfd]
    · simp [setFd, hfd]
  · simp [setFd, ht]

theorem Accounted.same (h : m.Accounted) (hfd : m'.fdTable = m.fdTable)
    (hfile : ∀ id, (m'.file id).isSome = (m.file id).isSome) (hnext : m'.nextFile = m.nextFile)
    (hcloses : m'.closes = m.closes) : m'.Accounted := by
  constructor
  · rw [hfd, hnext, hcloses]
    exact h.held
  · rw [hfd]
    exact h.low
  · rw [hfd]
    exact h.inj
  · rw [hfd, hnext, hcloses]
    exact h.placed
  · rw [hnext, hcloses]
    exact h.fresh
  · intro id
    rw [hfile, hnext, hcloses]
    exact h.alloc

/-- A file is allocated and put into a free place. -/
theorem Accounted.install (h : m.Accounted) (f : File) (hlow : 3 ≤ fd.val)
    (hfree : m.fdTable t fd = none) : ((m.addFile f).setFd t fd (some m.nextFile)).Accounted := by
  have htable : ∀ {t' fd' id}, ((m.addFile f).setFd t fd (some m.nextFile)).fdTable t' fd' =
      some id → t' = t ∧ fd' = fd ∧ id = m.nextFile ∨ m.fdTable t' fd' = some id := by
    intro t' fd' id hid
    rw [fdTable_setFd] at hid
    split at hid
    · rename_i hp
      exact .inl ⟨hp.1, hp.2, (some.inj hid).symm⟩
    · exact .inr hid
  have hnot : ∀ {t' fd'}, m.fdTable t' fd' ≠ some m.nextFile := fun hid =>
    absurd (h.held hid).1 (Nat.lt_irrefl _)
  constructor
  · intro t' fd' id hid
    rcases htable hid with ⟨-, -, rfl⟩ | hid
    · exact ⟨Nat.lt_succ_self _, h.fresh (Nat.le_refl _)⟩
    · exact ⟨Nat.lt_succ_of_lt (h.held hid).1, (h.held hid).2⟩
  · intro t' fd' id hid
    rcases htable hid with ⟨-, rfl, -⟩ | hid
    · exact hlow
    · exact h.low hid
  · intro t1 fd1 t2 fd2 id h1 h2
    rcases htable h1 with ⟨rfl, rfl, rfl⟩ | h1
    · rcases htable h2 with ⟨rfl, rfl, -⟩ | h2
      · exact ⟨rfl, rfl⟩
      · exact absurd h2 hnot
    · rcases htable h2 with ⟨-, -, rfl⟩ | h2
      · exact absurd h1 hnot
      · exact h.inj h1 h2
  · intro id hid
    rcases Nat.lt_succ_iff_lt_or_eq.mp hid with hid | rfl
    · refine (h.placed hid).imp_left fun ⟨hopen, t', fd', hp⟩ => ⟨hopen, t', fd', ?_⟩
      rw [fdTable_setFd, if_neg]
      · exact hp
      · rintro ⟨rfl, rfl⟩
        cases hfree.symm.trans hp
    · refine .inl ⟨h.fresh (Nat.le_refl _), t, fd, ?_⟩
      rw [fdTable_setFd, if_pos ⟨rfl, rfl⟩]
  · intro id hid
    exact h.fresh (Nat.le_of_succ_le hid)
  · intro id
    by_cases hid : id = m.nextFile
    · subst hid
      have hopen := h.fresh (Nat.le_refl m.nextFile)
      simp [setFd, addFile, hopen]
    · have halloc : (m.file id).isSome = true ↔ id < m.nextFile ∧ m.closes id = 0 := h.alloc
      have hlt : id < m.nextFile + 1 ↔ id < m.nextFile :=
        ⟨fun h => Nat.lt_of_le_of_ne (Nat.le_of_lt_succ h) hid, Nat.lt_succ_of_lt⟩
      simpa [setFd, addFile, hid, hlt] using halloc

theorem Accounted.addClosed (h : m.Accounted) (f : File) :
    ((m.addFile f).vfsClose m.nextFile).Accounted := by
  have hcloses : ∀ {id}, id < m.nextFile →
      ((m.addFile f).vfsClose m.nextFile).closes id = m.closes id := fun hid =>
    update_of_ne (Nat.ne_of_lt hid) ..
  constructor
  · intro t fd id hid
    obtain ⟨hlt, hopen⟩ := h.held hid
    exact ⟨Nat.lt_succ_of_lt hlt, (hcloses hlt).trans hopen⟩
  · exact h.low
  · exact h.inj
  · intro id hid
    rcases Nat.lt_succ_iff_lt_or_eq.mp hid with hid | rfl
    · rw [hcloses hid]
      exact h.placed hid
    · have hopen := h.fresh (Nat.le_refl m.nextFile)
      exact .inr (by simp [vfsClose, addFile, hopen])
  · intro id hid
    exact (update_of_ne (Nat.ne_of_gt hid) ..).trans (h.fresh (Nat.le_of_succ_le hid))
  · intro id
    by_cases hid : id = m.nextFile
    · subst hid
      simp [vfsClose, addFile]
    · have halloc : (m.file id).isSome = true ↔ id < m.nextFile ∧ m.closes id = 0 := h.alloc
      have hlt : id < m.nextFile + 1 ↔ id < m.nextFile :=
        ⟨fun h => Nat.lt_of_le_of_ne (Nat.le_of_lt_succ h) hid, Nat.lt_succ_of_lt⟩
      simpa [vfsClose, addFile, hid, hlt] using halloc

theorem Accounted.close (h : m.Accounted) (hfd : m.fdTable t fd = some id) :
    ((m.vfsClose id).setFd t fd none).Accounted := by
  obtain ⟨hlt, hopen⟩ := h.held hfd
  have htable : ∀ {t' fd' id'}, ((m.vfsClose id).setFd t fd none).fdTable t' fd' = some id' →
      m.fdTable t' fd' = some id' ∧ id' ≠ id := by
    intro t' fd' id' hid
    rw [fdTable_setFd] at hid
    split at hid
    · cases hid
    · rename_i hp
      refine ⟨hid, ?_⟩
      rintro rfl
      exact hp (h.inj hfd hid)
  have hcloses : ∀ {id'}, id' ≠ id →
      ((m.vfsClose id).setFd t fd none).closes id' = m.closes id' := fun hne =>
    update_of_ne hne ..
  constructor
  · intro t' fd' id' hid
    obtain ⟨hid, hne⟩ := htable hid
    exact ⟨(h.held hid).1, (hcloses hne).trans (h.held hid).2⟩
  · exact fun hid => h.low (htable hid).1
  · exact fun h1 h2 => h.inj (htable h1).1 (htable h2).1
  · intro id' hid
    by_cases hne : id' = id
    · subst hne
      exact .inr (by simp [setFd, vfsClose, hopen])
    · rw [hcloses hne]
      refine (h.placed hid).imp_left fun ⟨hopen, t', fd', hp⟩ => ⟨hopen, t', fd', ?_⟩
      rw [fdTable_setFd, if_neg]
      · exact hp
      · rintro ⟨rfl, rfl⟩
        exact hne (some.inj (hp.symm.trans hfd))
  · intro id' hid
    rw [hcloses (Nat.ne_of_gt (Nat.lt_of_lt_of_le hlt hid))]
    exact h.fresh hid
  · intro id'
    by_cases hne : id' = id
    · subst hne
      simp [setFd, vfsClose]
    · have halloc : (m.file id').isSome = true ↔ id' < m.nextFile ∧ m.closes id' = 0 := h.alloc
      simpa [setFd, vfsClose, hne] using halloc

/-! ## Calls -/

theorem freeFd_some {table : FdTable} (h : freeFd table = some fd) :
    3 ≤ fd.val ∧ table fd = none := by
  have hp := find?_some h
  rw [Bool.and_eq_true, decide_eq_true_eq, isNone_iff_eq_none] at hp
  exact hp

theorem entry_some {fd : ℤ} {i : Fin fdMax} (h : m.entry fd = some (i, id)) :
    m.fdTable m.current i = some id := by
  unfold entry at h
  split at h
  · obtain ⟨id', hid, h⟩ := map_eq_some_iff.mp h
    cases h
    exact hid
  · cases h

/-- Nothing but the contents of files has changed. -/
structure SameFiles (m m' : Machine) : Prop where
  kernel : m'.kernel = m.kernel
  fdTable : m'.fdTable = m.fdTable
  file : ∀ id, (m'.file id).isSome = (m.file id).isSome
  nextFile : m'.nextFile = m.nextFile
  closes : m'.closes = m.closes

theorem SameFiles.refl (m : Machine) : SameFiles m m := ⟨rfl, rfl, fun _ => rfl, rfl, rfl⟩

theorem Accounted.sameFiles (h : m.Accounted) (hs : SameFiles m m') : m'.Accounted :=
  h.same hs.fdTable hs.file hs.nextFile hs.closes

/-- A file that is there is changed. -/
theorem sameFiles_setFile {f f' : File} (h : m.file id = some f) (v : Vfs) :
    SameFiles m ({ m with vfs := v }.setFile id f') := by
  refine ⟨rfl, rfl, fun id' => ?_, rfl, rfl⟩
  by_cases hid : id' = id
  · subst hid
    simp [setFile, h]
  · simp [setFile, hid]

theorem sameFiles_vfsRead (m : Machine) (dev : Device) (id : FileId) (len : ℕ) :
    Post (m.vfsRead dev id len) fun r => SameFiles m r.2 := by
  intro r hr
  obtain ⟨f, hf, hr⟩ := bind_eq_some_iff.mp hr
  obtain ⟨dentry, -, hr⟩ := bind_eq_some_iff.mp hr
  cases hi : dentry.dInode with
  | none =>
    simp only [hi] at hr
    cases hr
    exact .refl m
  | some i =>
    simp only [hi] at hr
    obtain ⟨inode, -, hr⟩ := bind_eq_some_iff.mp hr
    obtain ⟨done, -, rfl⟩ := map_eq_some_iff.mp hr
    cases done with
    | none => exact .refl m
    | some done => exact sameFiles_setFile hf m.vfs

theorem sameFiles_sysReadFn (m : Machine) (dev : Device) (fd : ℤ) (len : ℕ) (valid : Bool) :
    Post (m.sysReadFn dev fd len valid) fun r => SameFiles m r.2 := by
  unfold sysReadFn
  split
  · exact .some (.refl m)
  split
  · exact .some (.refl m)
  split
  · exact .some (.refl m)
  · exact sameFiles_vfsRead m dev _ len

theorem sameFiles_writeFile {pool : Pool} {f : File} {buf : List UInt8} (hf : m.file id = some f) :
    Post (m.writeFile pool id f buf) fun r => SameFiles m r.2 := by
  intro r hr
  obtain ⟨dentry, -, hr⟩ := bind_eq_some_iff.mp hr
  cases hi : dentry.dInode with
  | none =>
    simp only [hi] at hr
    cases hr
    exact .refl m
  | some i =>
    simp only [hi] at hr
    cases hmin : m.vfs.memfsInode i with
    | none =>
      simp only [hmin] at hr
      cases hr
      exact .refl m
    | some min =>
      simp only [hmin] at hr
      obtain ⟨done, -, rfl⟩ := map_eq_some_iff.mp hr
      cases done with
      | none => exact .refl m
      | some done => exact sameFiles_setFile hf _

theorem sameFiles_sysWriteFn (m : Machine) (pool : Pool) (fd : ℤ) (buf : Option (List UInt8)) :
    Post (m.sysWriteFn pool fd buf) fun r => SameFiles m r.2 := by
  unfold sysWriteFn
  split
  · exact .some (.refl m)
  split
  · intro r hr
    obtain ⟨f, hf, hr⟩ := bind_eq_some_iff.mp hr
    split at hr
    · exact sameFiles_writeFile hf r hr
    · cases hr
      exact .refl m
  · exact .some (.refl m)

/-- What a call has done to the tables: they are as they were, except those of the running task,
which runs still. -/
structure Calls (m m' : Machine) : Prop where
  /-- files are accounted for -/
  accounted : m'.Accounted
  kernel : m'.kernel = m.kernel
  /-- the tables of the others -/
  others : ∀ t, t ≠ m.current → m'.fdTable t = m.fdTable t

theorem Accounted.calls (h : m.Accounted) (hs : SameFiles m m') : Calls m m' :=
  ⟨h.sameFiles hs, hs.kernel, fun t _ => congrFun hs.fdTable t⟩

theorem others_setFd (m : Machine) (t : TaskPtr) (fd : Fin fdMax) (id : Option FileId)
    {t' : TaskPtr} (h : t' ≠ t) : (m.setFd t fd id).fdTable t' = m.fdTable t' :=
  update_of_ne h ..

theorem calls_sysOpenFn (h : m.Accounted) (pool : Pool) (path : Option CStr) (flags mode : ℕ) :
    Post (m.sysOpenFn pool path flags mode) fun r => Calls m r.2 := by
  unfold sysOpenFn
  cases path with
  | none => exact .some (h.calls (.refl m))
  | some path =>
    refine Post.forall_bind ?_
    rintro ⟨f, w⟩
    have hvfs : Accounted { m with vfs := w.vfs } := h.same rfl (fun _ => rfl) rfl rfl
    cases f with
    | none => exact .some ⟨hvfs, rfl, fun _ _ => rfl⟩
    | some f =>
      refine .some ?_
      simp only [installFile]
      split
      · exact ⟨hvfs.addClosed f, rfl, fun _ _ => rfl⟩
      · rename_i fd hfd
        obtain ⟨hlow, hfree⟩ := freeFd_some hfd
        exact ⟨hvfs.install f hlow hfree, rfl, fun t ht => others_setFd _ _ _ _ ht⟩

theorem calls_sysCloseFn (h : m.Accounted) (fd : ℤ) : Calls m (m.sysCloseFn fd).2 := by
  unfold sysCloseFn
  split
  · exact h.calls (.refl m)
  · rename_i i id hentry
    exact ⟨h.close (entry_some hentry), rfl, fun t ht => others_setFd _ _ _ _ ht⟩

/-- **A system call on files** keeps them accounted for. -/
theorem calls_syscallHandler (h : m.Accounted) (pool : Pool) (call : FileCall) :
    Post (m.syscallHandler pool call) fun r => Calls m r.2 := by
  unfold syscallHandler
  split
  swap
  · exact .some (h.calls (.refl m))
  cases call with
  | «open» path flags mode => exact calls_sysOpenFn h pool path flags mode
  | close fd => exact .some (calls_sysCloseFn h fd)
  | read dev fd len valid => exact (sameFiles_sysReadFn m dev fd len valid).mono fun _ => h.calls
  | write fd buf => exact (sameFiles_sysWriteFn m pool fd buf).mono fun _ => h.calls
  | ls path valid buflen =>
    exact Post.map (P := fun _ => True) (fun _ _ => trivial) fun _ _ => h.calls (.refl m)

/-! ## Other events -/

theorem accounted_readProgram (h : m.Accounted) (pool : Pool) (path : CStr) :
    Post (m.readProgram pool path) fun m' =>
      m'.Accounted ∧ m'.kernel = m.kernel ∧ m'.fdTable = m.fdTable := by
  refine Post.forall_bind ?_
  rintro ⟨f, w⟩
  have hvfs : Accounted { m with vfs := w.vfs } := h.same rfl (fun _ => rfl) rfl rfl
  cases f with
  | none => exact .some ⟨hvfs, rfl, rfl⟩
  | some f => exact .some ⟨hvfs.addClosed f, rfl, rfl⟩

/-- The loop of `task_exit` has emptied these places of the table. -/
structure Emptied (t : TaskPtr) (fds : List (Fin fdMax)) (m m' : Machine) : Prop where
  /-- files are accounted for -/
  accounted : m'.Accounted
  kernel : m'.kernel = m.kernel
  /-- the tables of the others -/
  others : ∀ t', t' ≠ t → m'.fdTable t' = m.fdTable t'
  /-- the places -/
  table : ∀ fd, m'.fdTable t fd = if fd ∈ fds then none else m.fdTable t fd

theorem emptied_foldl (h : m.Accounted) (t : TaskPtr) (fds : List (Fin fdMax)) :
    Emptied t fds m (fds.foldl (closeFd t) m) := by
  induction fds generalizing m with
  | nil => exact ⟨h, rfl, fun _ _ => rfl, fun _ => rfl⟩
  | cons fd fds ih =>
    have hstep : Emptied t [fd] m (closeFd t m fd) := by
      unfold closeFd
      split
      · rename_i hnone
        refine ⟨h, rfl, fun _ _ => rfl, fun fd' => ?_⟩
        split
        · rename_i hmem
          rw [mem_singleton.mp hmem]
          exact hnone
        · rfl
      · rename_i id hid
        refine ⟨h.close hid, rfl, fun t' ht => others_setFd _ _ _ _ ht, fun fd' => ?_⟩
        rw [fdTable_setFd]
        simp only [true_and, mem_singleton]
        rfl
    have hrest := ih hstep.accounted
    refine ⟨hrest.accounted, hrest.kernel.trans hstep.kernel,
      fun t' ht => (hrest.others t' ht).trans (hstep.others t' ht), fun fd' => ?_⟩
    rw [foldl_cons, hrest.table, hstep.table]
    by_cases hmem : fd' ∈ fds
    · simp [hmem]
    · simp [hmem]

/-- **A task that ends has no files open.** -/
theorem emptied_closeFiles (h : m.Accounted) :
    m.closeFiles.Accounted ∧ m.closeFiles.kernel = m.kernel ∧
      ∀ t, m.closeFiles.fdTable t = if t = m.current then .empty else m.fdTable t := by
  have hclosed := emptied_foldl h m.current
    ((finRange fdMax).filter fun fd => decide (3 ≤ fd.val))
  refine ⟨hclosed.accounted, hclosed.kernel, fun t => ?_⟩
  split
  · rename_i ht
    subst ht
    funext fd
    refine (hclosed.table fd).trans ?_
    split
    · rfl
    · rename_i hnot
      cases hfd : m.fdTable m.current fd with
      | none => rfl
      | some id =>
        refine absurd ?_ hnot
        exact mem_filter.mpr ⟨mem_finRange fd, decide_eq_true (h.low hfd)⟩
  · rename_i ht
    exact hclosed.others t ht

end Machine

/-! ## Images -/

/-- An image in order leaves the tables alone. -/
theorem FdLayout.load_same (L : FdLayout) (k : Kernel) {file : FileRead}
    (h : ∀ mem data, file = .image mem data → ImageOk mem data) (fds : TaskPtr → FdTable) :
    L.load k file fds = fds := by
  cases file with
  | image mem data =>
    have himg : ImageOk mem data := h mem data rfl
    refine L.reloadFds_same fds ?_
    unfold loadedMem
    split
    · rename_i pd vm _
      have hconf : Confined ⟨vm.loadCr3 pd, mem, []⟩
          (elfLoad loaderFuel ⟨vm.loadCr3 pd, mem, []⟩ data).2.2 := Confined.elfLoad himg
      exact hconf.mem
    · exact .refl _ _
  | _ => rfl

variable {k : Kernel} {e : TableEvent}

namespace TableEvent

theorem programs_exec {path : CStr} {argv : List CStr} {file : FileRead}
    (hperm : permitted (k.sched.task k.sched.currentTask).caps .exec = true) :
    TableEvent.programs k (.kernel (.syscall (.exec (some path) argv file))) =
      [(resolvePath (k.sched.task k.sched.currentTask).rootPath path resolvedSize, file)] :=
  if_pos hperm

theorem loadPrograms_kernel (L : FdLayout) (k : Kernel) (e : KernelEvent)
    (fds : TaskPtr → FdTable) : TableEvent.loadPrograms L k (.kernel e) fds =
      (TableEvent.programs k (.kernel e)).foldl (fun fds p => L.load k p.2 fds) fds := rfl

/-- The programs of an event with images in order. -/
theorem ImagesOk.programs (h : e.ImagesOk) (k : Kernel) :
    ∀ p ∈ e.programs k, ∀ mem data, p.2 = .image mem data → ImageOk mem data := by
  intro p hp mem data hfile
  unfold TableEvent.programs at hp
  split at hp
  · split at hp
    · obtain rfl := mem_singleton.mp hp
      obtain rfl : _ = FileRead.image mem data := hfile
      exact h
    · cases hp
  · obtain rfl := mem_singleton.mp hp
    obtain rfl : _ = FileRead.image mem data := hfile
    exact h
  · obtain ⟨i, -, hi⟩ := mem_filterMap.mp hp
    obtain ⟨e, -, rfl⟩ := map_eq_some_iff.mp hi
    exact h i mem data hfile
  · cases hp

/-- **Images in order leave the tables alone.** -/
theorem loadPrograms_same (L : FdLayout) (k : Kernel) (h : e.ImagesOk) (fds : TaskPtr → FdTable) :
    e.loadPrograms L k fds = fds := by
  cases e with
  | check reads =>
    unfold loadPrograms
    simp only
    generalize range k.sched.wdTable.length = l
    induction l generalizing k with
    | nil => rfl
    | cons i l ih =>
      rw [foldl_cons]
      simp only [L.load_same k (h i), ite_self]
      exact ih _
  | kernel e =>
    have hok := h.programs k
    rw [loadPrograms_kernel]
    generalize TableEvent.programs k (.kernel e) = l at hok
    induction l with
    | nil => rfl
    | cons p l ih =>
      rw [foldl_cons, L.load_same k (hok p mem_cons_self)]
      exact ih fun q hq => hok q (mem_cons_of_mem _ hq)
  | reap => rfl

end TableEvent

/-! ## Runs -/

/-- The images that the event loads are in order. -/
def MachineEvent.ImagesOk : MachineEvent → Prop
  | .call _ _ => True
  | .table e _ => e.ImagesOk

/-- The runs in which all images are in order. -/
abbrev orderlyMachine (L : FdLayout) : System Machine MachineEvent :=
  (machineSystem L).restrict fun _ e => e.ImagesOk

variable {L : FdLayout}

namespace Machine

variable {m m' : Machine}

/-- What holds in every such run. -/
structure Owns (m : Machine) : Prop where
  /-- files, places and calls of `vfs_close` -/
  accounted : m.Accounted
  /-- the process table -/
  fits : m.kernel.sched.Fits
  /-- the running task -/
  alive : m.kernel.sched.Alive
  /-- who has a file open is there, and has not ended -/
  live : ∀ {t fd id}, m.fdTable t fd = some id →
    (m.kernel.sched.task t).inUse = true ∧ (m.kernel.sched.task t).state ≠ .exited

/-- **A system call on files.** -/
theorem Owns.call (h : m.Owns) (hcur : m.current ≠ .idle) (pool : Pool) (call : FileCall) :
    Post (m.syscallHandler pool call) fun r => r.2.Owns := by
  intro r hr
  have hcalls := calls_syscallHandler h.accounted pool call r hr
  by_cases hperm : permitted (m.kernel.sched.task m.current).caps call.nr = true
  · have hneed : syscallCaps call.nr ≠ 0 := by
      cases call <;> first | exact (by decide : capRead ≠ 0) | exact (by decide : capWrite ≠ 0)
    have huse := inUse_of_permitted h.fits hcur hneed hperm
    refine ⟨hcalls.accounted, ?_, ?_, fun {t fd id} hid => ?_⟩
    · rw [hcalls.kernel]
      exact h.fits
    · rw [hcalls.kernel]
      exact h.alive
    · rw [hcalls.kernel]
      by_cases ht : t = m.current
      · subst ht
        exact ⟨huse, h.alive.resolve_left hcur⟩
      · rw [hcalls.others t ht] at hid
        exact h.live hid
  · simp only [syscallHandler, if_neg hperm] at hr
    cases hr
    exact h

theorem Owns.programs (h : m.Owns) (pool : Pool) (l : List (CStr × FileRead)) :
    Post (l.foldlM (fun m p => m.readProgram pool p.1) m) fun m' =>
      m'.Owns ∧ m'.kernel = m.kernel ∧ m'.fdTable = m.fdTable := by
  refine Post.foldlM (P := fun m' : Machine => m'.Owns ∧ m'.kernel = m.kernel ∧
    m'.fdTable = m.fdTable)
    (fun m1 p h1 => ?_) l ⟨h, rfl, rfl⟩
  refine (accounted_readProgram h1.1.accounted pool p.1).mono ?_
  rintro m2 ⟨haccounted, hkernel, hfds⟩
  refine ⟨⟨haccounted, hkernel ▸ h1.1.fits, hkernel ▸ h1.1.alive, fun {t fd id} hid => ?_⟩,
    hkernel.trans h1.2.1, hfds.trans h1.2.2⟩
  rw [hfds] at hid
  rw [hkernel]
  exact h1.1.live hid

theorem Owns.endTask (h : m.Owns) (e : TableEvent) :
    (m.endTask e).Accounted ∧ (m.endTask e).kernel = m.kernel ∧
      ∀ t, (m.endTask e).fdTable t = if m.kernel.dead e = some t then .empty else m.fdTable t := by
  unfold Machine.endTask dead
  split
  · obtain ⟨haccounted, hkernel, hfds⟩ := emptied_closeFiles h.accounted
    refine ⟨haccounted, hkernel, fun t => ?_⟩
    rw [hfds]
    simp only [some.injEq, eq_comm]
  · exact ⟨h.accounted, rfl, fun _ => (if_neg nofun).symm⟩

/-- Who has a file open was there before, and is not the one that ends: it goes on. -/
theorem Owns.live_endTask (h : m.Owns)
    (hgoing : Sched.Going (m.kernel.dead e) m.kernel.sched k.sched)
    (hid : (m.endTask e).fdTable t fd = some id) :
    (m.kernel.sched.task t).inUse = true ∧
      (k.sched.task t).inUse = true ∧ (k.sched.task t).state ≠ .exited := by
  rw [(h.endTask e).2.2] at hid
  split at hid
  · cases hid
  · rename_i hdead
    obtain ⟨huse, hstate⟩ := h.live hid
    obtain ⟨huse', -, hstate'⟩ := hgoing t hdead huse hstate
    exact ⟨huse, huse', hstate'⟩

/-- The tables stay when the kernel goes on. -/
theorem Owns.fdTable_setKernel (L : FdLayout) (h : m.Owns) (himg : e.ImagesOk)
    (hgoing : Sched.Going (m.kernel.dead e) m.kernel.sched k.sched) :
    ((m.endTask e).setKernel L e k).fdTable = (m.endTask e).fdTable := by
  have hkernel := (h.endTask e).2.1
  funext t fd
  simp only [setKernel, TableEvent.loadPrograms_same L _ himg, clearTables, hkernel]
  split
  · rfl
  · rename_i hnot
    cases hid : (m.endTask e).fdTable t fd with
    | none => rfl
    | some id =>
      obtain ⟨huse, huse', -⟩ := h.live_endTask hgoing hid
      exact absurd ⟨huse, huse'⟩ hnot

/-- **Any other event** with images in order: who has a file open goes on, and the tables stay. -/
theorem Owns.runTable (h : m.Owns) (hallowed : (tableSystem L.toLayout).allowed m.kernel e)
    (himg : e.ImagesOk) (pool : Pool) : Post (m.runTable L pool e) Owns := by
  refine (h.programs pool (e.programs m.kernel)).bind ?_
  rintro m1 ⟨h1, hkernel1, -⟩
  rw [← hkernel1] at hallowed
  obtain ⟨haccounted, hkernel, -⟩ := h1.endTask e
  have hstep := (going_step h1.fits hallowed himg).and
    (alive_step h1.fits h1.alive hallowed himg)
  simp only [hkernel]
  refine hstep.bind ?_
  rintro k ⟨⟨hfits, hgoing⟩, halive⟩
  have htables := h1.fdTable_setKernel L himg hgoing
  refine .some ⟨haccounted.same htables (fun _ => rfl) rfl rfl, hfits, halive,
    fun {t fd id} hid => ?_⟩
  rw [htables] at hid
  exact (h1.live_endTask hgoing hid).2

theorem owns_of_reachable (h : (orderlyMachine L).Reachable m) : m.Owns := by
  refine System.Reachable.invariant (S := orderlyMachine L) (I := Owns) ?_ ?_ h
  · rintro m ⟨⟨pageDirectory, hsched, -⟩, hfds, hfile, hnext, hcloses⟩
    refine ⟨?_, ?_, ?_, ?_⟩
    · constructor <;> simp [hfds, hfile, hnext, hcloses, FdTable.empty]
    · rw [hsched]
      exact fits_taskInit _
    · rw [hsched]
      exact .inl rfl
    · intro t fd id hid
      rw [hfds] at hid
      cases hid
  · rintro m e m' hm ⟨hallowed, himg⟩ hstep
    cases e with
    | call call pool =>
      obtain ⟨r, hr, rfl⟩ := map_eq_some_iff.mp hstep
      exact hm.call hallowed pool call r hr
    | table e pool => exact hm.runTable hallowed.1 himg pool m' hstep

/-- **Open files are owned.** -/
structure FilesOwned (m : Machine) : Prop where
  /-- every file is in exactly one place and has not been closed, or in none and closed once -/
  file : ∀ id, id < m.nextFile →
    (m.closes id = 0 ∧ ∃! p : TaskPtr × Fin fdMax, m.fdTable p.1 p.2 = some id) ∨
      (m.closes id = 1 ∧ ∀ t fd, m.fdTable t fd ≠ some id)
  /-- the place is from 3 to 7 in the table of a task that has not ended -/
  place : ∀ t fd id, m.fdTable t fd = some id → 3 ≤ fd.val ∧
    (m.kernel.sched.task t).inUse = true ∧ (m.kernel.sched.task t).state ≠ .exited
  /-- no place has a file that was closed, or never there -/
  held : ∀ t fd id, m.fdTable t fd = some id →
    id < m.nextFile ∧ m.closes id = 0 ∧ (m.file id).isSome = true
  /-- what `sys_open_fn` returns is the place of the file it has made -/
  opened : ∀ pool path flags mode r m', m.sysOpenFn pool path flags mode = some (r, m') → 0 ≤ r →
    ∃ fd : Fin fdMax, r = fd.val ∧ m'.nextFile = m.nextFile + 1 ∧
      m'.fdTable m.current fd = some m.nextFile

theorem opened_sysOpenFn {pool : Pool} {path : Option CStr} {flags mode : ℕ} {r : ℤ}
    (h : m.sysOpenFn pool path flags mode = some (r, m')) (hr : 0 ≤ r) :
    ∃ fd : Fin fdMax, r = fd.val ∧ m'.nextFile = m.nextFile + 1 ∧
      m'.fdTable m.current fd = some m.nextFile := by
  unfold sysOpenFn at h
  cases path with
  | none =>
    obtain ⟨rfl, -⟩ := Prod.mk.inj (some.inj h)
    exact absurd hr (by decide)
  | some path =>
    obtain ⟨⟨f, w⟩, -, h⟩ := bind_eq_some_iff.mp h
    cases f with
    | none =>
      obtain ⟨rfl, -⟩ := Prod.mk.inj (some.inj h)
      exact absurd hr (by decide)
    | some f =>
      have h := some.inj h
      simp only [installFile] at h
      split at h
      · obtain ⟨rfl, -⟩ := Prod.mk.inj h
        exact absurd hr (by decide)
      · rename_i fd hfd
        cases h
        refine ⟨fd, rfl, rfl, ?_⟩
        exact (fdTable_setFd ..).trans (if_pos ⟨rfl, rfl⟩)

end Machine

/-- **Open files are owned** in every state of a run whose images are in order, whatever tasks
open, close, fork, execute, and however they end. -/
theorem files_owned (L : FdLayout) {m : Machine} (h : (orderlyMachine L).Reachable m) :
    m.FilesOwned := by
  have howns := owns_of_reachable h
  refine ⟨fun id hid => ?_, fun t fd id hfd => ⟨howns.accounted.low hfd, howns.live hfd⟩,
    fun t fd id hfd => ?_, fun pool path flags mode r m' => opened_sysOpenFn⟩
  · rcases howns.accounted.placed hid with ⟨hopen, t, fd, hfd⟩ | hclosed
    · refine .inl ⟨hopen, (t, fd), hfd, fun p hp => ?_⟩
      obtain ⟨ht, hfd'⟩ := howns.accounted.inj hfd hp
      exact Prod.ext ht hfd'
    · refine .inr ⟨hclosed, fun t fd hfd => ?_⟩
      cases hclosed.symm.trans (howns.accounted.held hfd).2
  · obtain ⟨hlt, hopen⟩ := howns.accounted.held hfd
    exact ⟨hlt, hopen, howns.accounted.alloc.mpr ⟨hlt, hopen⟩⟩

/-! ## Two runs -/

/-- The address of `tasks[i].fd_table[fd]`. -/
def fdAddr (i : Fin maxTasks) (fd : Fin fdMax) : ℕ := tasksAddr + 16612 * i.val + 16580 + 4 * fd.val

/-- The tables once their words have been written to. A word that is not 0 is no file that the
kernel has made; such words are numbered from `2 ^ 32` on. -/
def reloadWords (m m' : Mem) (fds : TaskPtr → FdTable) : TaskPtr → FdTable
  | .idle => fds .idle
  | .slot i => fun fd =>
    if m'.wordAt (fdAddr i fd) = m.wordAt (fdAddr i fd) then fds (.slot i) fd
    else if m'.wordAt (fdAddr i fd) = 0 then none
    else some (2 ^ 32 + m'.wordAt (fdAddr i fd))

/-- The `caps` and `fd_table` fields of `tasks` lie in memory. -/
def fdLayout : FdLayout where
  toLayout := capsLayout
  reloadFds := reloadWords
  reloadFds_same {m m'} fds h := by
    funext t
    cases t with
    | idle => rfl
    | slot i =>
      funext fd
      refine if_pos (wordAt_kernel h ?_)
      have hi : i.val < 16 := i.isLt
      have hfd : fd.val < 8 := fd.isLt
      unfold fdAddr tasksAddr
      omega

/-- The file systems with a program at `/mnt/prog.elf`. -/
def progVfs : Vfs :=
  { bootVfs with
    dentry := fun d => if d = 3 then some (fileDentry (cstr "prog.elf") 3 2) else bootVfs.dentry d }

/-- The machine after `kernel_main` has mounted the file systems. -/
def bootMachine : Machine where
  kernel := bootState.kernel
  vfs := progVfs
  fdTable _ := .empty
  file _ := none
  nextFile := 0
  closes _ := 0

/-- An event with memory for everything. -/
def MachineEvent.ofKernel (e : KernelEvent) : MachineEvent := .table (.kernel e) .ample

/-- The machine when the program runs. -/
def programMachine : Machine :=
  ((machineSystem fdLayout).run bootMachine (startProgram.map .ofKernel)).getD bootMachine

theorem run_programMachine :
    (machineSystem fdLayout).run bootMachine (startProgram.map .ofKernel) =
      some programMachine := by
  obtain ⟨m, hm, -⟩ :
      ∃ m ∈ (machineSystem fdLayout).run bootMachine (startProgram.map .ofKernel), True := by
    decide +kernel
  rw [programMachine, hm]
  rfl

theorem reachable_programMachine : (orderlyMachine fdLayout).Reachable programMachine := by
  have hrun : (orderlyMachine fdLayout).run bootMachine (startProgram.map .ofKernel) =
      some programMachine := (System.run_restrict _ _).trans run_programMachine
  refine System.reachable_run (S := orderlyMachine fdLayout)
    (.init ⟨⟨300, rfl, rfl⟩, rfl, rfl, rfl, rfl⟩) ?_ hrun
  refine ⟨⟨⟨trivial, fun p hp => ?_⟩, imageOk_program⟩,
    fun _ _ => ⟨⟨⟨trivial, nofun⟩, trivial⟩, fun _ _ => trivial⟩⟩
  obtain rfl := mem_singleton.mp hp
  exact ⟨nofun, fun hnone => absurd hnone (by decide +kernel)⟩

/-- A call on files with memory for everything. -/
def MachineEvent.ofCall (call : FileCall) : MachineEvent := .call call .ample

/-- A call may be made, and calls load no images. -/
def MachineEvent.isCall (m : Machine) : MachineEvent → Bool
  | .call _ _ => decide (m.current ≠ .idle)
  | _ => false

theorem MachineEvent.allowed_of_isCall {m : Machine} {e : MachineEvent} (h : e.isCall m = true) :
    (orderlyMachine L).allowed m e := by
  cases e with
  | call call pool => exact ⟨of_decide_eq_true (p := m.current ≠ .idle) h, trivial⟩
  | table e pool => cases h

/-- The program creates a file, and opens and closes another. -/
def openTwo : List MachineEvent :=
  [.ofCall (.open (some (cstr "/home/evil")) oCreat 0),
    .ofCall (.open (some (cstr "/mnt/prog.elf")) 0 0), .ofCall (.close 4)]

/-- Two files: one is open, the other has been closed. -/
theorem files_owned_two : ∃ m, (orderlyMachine fdLayout).Reachable m ∧ m.nextFile = 3 ∧
    m.fdTable (.slot 0) 3 = some 1 ∧ m.closes 2 = 1 ∧ m.FilesOwned := by
  obtain ⟨m, hm, hnext, hopen, hclosed⟩ := System.exists_reachable (S := orderlyMachine fdLayout)
    (fun m e => e.isCall m) openTwo
    (fun m => m.nextFile = 3 ∧ m.fdTable (.slot 0) 3 = some 1 ∧ m.closes 2 = 1)
    (fun _ _ => MachineEvent.allowed_of_isCall) reachable_programMachine (by decide +kernel)
  exact ⟨m, hm, hnext, hopen, hclosed, files_owned fdLayout hm⟩

/-- An ELF file whose one segment is `tasks[0].fd_table[3]`, a word of zeros. -/
def evilImage : List UInt8 := oneSegment (fdAddr 0 3) 0

/-- The program writes the image into a file. -/
def writeEvil : List MachineEvent :=
  [.ofCall (.open (some (cstr "/home/evil")) oCreat 0), .ofCall (.write 3 (some evilImage))]

/-- Memory when the image has been read: a file is open at the place it writes to. -/
def evilMem : Mem := fun a =>
  if fdAddr 0 3 ≤ a ∧ a < fdAddr 0 3 + 4 then (bytes32 0xD0001000).getD (a - fdAddr 0 3) 0
  else imageMem evilImage a

/-- The program executes the file. -/
def execEvil : TableEvent :=
  .kernel (.syscall (.exec (some (cstr "/home/evil")) [] (.image evilMem 0xD0000008)))

/-- The file is open, and the image that the program may execute overwrites its place. -/
def evilReady (m : Machine) : Bool :=
  decide (m.current = .slot 0 ∧ m.nextFile = 2 ∧ m.fdTable (.slot 0) 3 = some 1 ∧
    (m.kernel.sched.task (.slot 0)).limits = ⟨1, true, capUserDefault, 0, 0, []⟩ ∧
    (m.kernel.loadedMem evilMem 0xD0000008).wordAt (fdAddr 0 3) = 0) &&
  (vfsOpen .ample [] (cstr "/home/evil") 0 m.vfs.enter).any (fun r => r.1.isSome) &&
  (m.kernel.execLoaded capsLayout evilMem 0xD0000008).any (fun r =>
    stackReady (r.2.2.sched.task (.slot 0)).cr3 r.1 r.2.2.vm &&
      decide ((r.2.2.sched.task (.slot 0)).tier = .user ∧
        (r.2.2.sched.task (.slot 0)).limits = ⟨1, true, capUserDefault, 0, 0, []⟩))

theorem evil_ready : ∃ m, (orderlyMachine fdLayout).Reachable m ∧ evilReady m = true :=
  System.exists_reachable (S := orderlyMachine fdLayout) (fun m e => e.isCall m) writeEvil
    (fun m => evilReady m) (fun _ _ => MachineEvent.allowed_of_isCall) reachable_programMachine
    (by decide +kernel)

/-- The place of the file is not there any more. -/
theorem reloadWords_ne {m : Machine} (hm : m.Accounted) (hfd : m.fdTable (.slot 0) 3 = some 1)
    {mem' : Mem} (hword : mem'.wordAt (fdAddr 0 3) = 0) (t : TaskPtr) (fd : Fin fdMax) :
    reloadWords evilMem mem' m.fdTable t fd ≠ some 1 := by
  have hbefore : evilMem.wordAt (fdAddr 0 3) ≠ 0 := by decide +kernel
  intro hone
  cases t with
  | idle => cases (hm.inj hfd hone).1
  | slot i =>
    simp only [reloadWords] at hone
    split at hone
    · rename_i hsame
      obtain ⟨ht, rfl⟩ := hm.inj hfd hone
      obtain rfl := TaskPtr.slot.inj ht
      exact hbefore (hsame.symm.trans hword)
    · split at hone
      · cases hone
      · have hid : 2 ^ 32 + mem'.wordAt (fdAddr i fd) = 1 := some.inj hone
        omega

/-- **An image out of order loses a file**: the program has a file open, and executes an image
that overwrites its place in the table; the file is in no table then, and has not been closed. -/
theorem file_lost : ∃ m m', (machineSystem fdLayout).Reachable m ∧
    (machineSystem fdLayout).allowed m (.table execEvil .ample) ∧
    (machineSystem fdLayout).step m (.table execEvil .ample) = some m' ∧
    1 < m'.nextFile ∧ m'.closes 1 = 0 ∧ ∀ t fd, m'.fdTable t fd ≠ some 1 := by
  obtain ⟨m, hm, hready⟩ := evil_ready
  simp only [evilReady, Bool.and_eq_true, decide_eq_true_eq, Option.any_eq_true] at hready
  obtain ⟨⟨⟨hcur, hnext, hfd, hlimits, hword⟩, ⟨f, w⟩, hopen, hf⟩, hload⟩ := hready
  have haccounted := (owns_of_reachable hm).accounted
  have hroot : (m.kernel.sched.task (.slot 0)).rootPath = [] := congrArg Limits.rootPath hlimits
  have hcaps : (m.kernel.sched.task (.slot 0)).caps = capUserDefault :=
    congrArg Limits.caps hlimits
  have hperm : permitted (m.kernel.sched.task m.current).caps .exec = true := by
    rw [hcur, hcaps]
    decide
  -- the call opens the file, and returns
  have hresolve : resolvePath [] (cstr "/home/evil") resolvedSize = cstr "/home/evil" := by
    decide +kernel
  have hprog : execEvil.programs m.kernel =
      [(cstr "/home/evil", .image evilMem 0xD0000008)] := by
    have hcur' : m.kernel.sched.currentTask = .slot 0 := hcur
    rw [execEvil, TableEvent.programs_exec hperm, hcur', hroot, hresolve]
  obtain ⟨f, rfl⟩ := Option.isSome_iff_exists.mp hf
  have hopen' : vfsOpen .ample m.root (cstr "/home/evil") 0 m.vfs.enter = some (some f, w) := by
    rw [root, hcur, hroot]
    exact hopen
  have htier : elfAssignTier (resolvePath [] (cstr "/home/evil") resolvedSize) = .user := by
    decide +kernel
  obtain ⟨k, hexec, -⟩ := exists_exec hcur hroot htier hload
  have happly : (tableSystem capsLayout).step m.kernel execEvil = some k :=
    apply_exec hperm hexec
  set m1 := (({ m with vfs := w.vfs } : Machine).addFile f).vfsClose m.nextFile with hm1
  have hread : m.readProgram .ample (cstr "/home/evil") = some m1 := bind_of_some hopen' _
  have hstep : m.runTable fdLayout .ample execEvil = some (m1.setKernel fdLayout execEvil k) := by
    unfold runTable
    rw [hprog, foldlM_cons, hread]
    exact bind_of_some happly _
  refine ⟨m, m1.setKernel fdLayout execEvil k, hm.of_restrict, ⟨?_, ?_⟩, hstep, ?_, ?_, ?_⟩
  · change m.current ≠ .idle
    rw [hcur]
    intro hidle
    cases hidle
  · intro p hp
    rw [hprog] at hp
    obtain rfl := mem_singleton.mp hp
    refine ⟨fun hmissing => (by cases hmissing), fun hnone => ?_⟩
    rw [hopen'] at hnone
    cases hnone
  · change 1 < m.nextFile + 1
    rw [hnext]
    decide
  · have hopened := (haccounted.held hfd).2
    change update m.closes m.nextFile _ 1 = 0
    rw [hnext, update_of_ne (by decide)]
    exact hopened
  · intro t fd hone
    have hreload : (m1.setKernel fdLayout execEvil k).fdTable = clearTables
        m.kernel.sched k.sched (reloadWords evilMem (m.kernel.loadedMem evilMem 0xD0000008)
          m.fdTable) := by
      have hload : execEvil.loadPrograms fdLayout m.kernel m.fdTable =
          reloadWords evilMem (m.kernel.loadedMem evilMem 0xD0000008) m.fdTable := by
        refine (TableEvent.loadPrograms_kernel ..).trans ?_
        change foldl _ _ (execEvil.programs m.kernel) = _
        rw [hprog]
        rfl
      exact congrArg (clearTables m.kernel.sched k.sched) hload
    rw [hreload, clearTables] at hone
    split at hone
    · exact reloadWords_ne haccounted hfd hword t fd hone
    · cases hone

end PokuOS
