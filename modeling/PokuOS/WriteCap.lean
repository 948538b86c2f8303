import PokuOS.View

/-!
# Changing files without the capability to write

`SYS_WRITE` asks for `CAP_WRITE`; but `SYS_OPEN` asks for `CAP_READ` only, and with `O_TRUNC` or
`O_CREAT` it changes files too.

* `silentMachine` — the machine on which the calls of some tasks are left out.
* `write_needed` — **tasks without `CAP_WRITE` change no file**, as long as they open files
  harmlessly: the others see what they would see if those calls had not been made.
* `changes_without_write` — a task without the capability empties a file, and makes another.
-/

namespace PokuOS

open Machine Option

/-! ## One call -/

/-- The call opens no file in a way that changes one. -/
def FileCall.Harmless (pool : Pool) (root : CStr) (v : Vfs) : FileCall → Prop
  | .open (some path) flags _ =>
    HarmlessOpen pool (resolvePath root (copyUserPath path) pathSize) flags v
  | _ => True

variable {call : FileCall}

namespace View

variable {v : View} {pool : Pool} {root : CStr} {caps : BitVec 32}

theorem vfs_openFile {path : Option CStr} {flags mode : ℕ}
    (h : (FileCall.open path flags mode).Harmless pool root v.vfs) :
    Post (v.openFile pool root path flags mode) fun r => r.2.vfs = v.vfs := by
  cases path with
  | none => exact .some rfl
  | some path =>
    intro r hr
    obtain ⟨⟨f, w⟩, hopen, hr⟩ := bind_eq_some_iff.mp hr
    have hvfs : w.vfs = v.vfs := HarmlessOpen.vfs h hopen
    cases f with
    | none =>
      cases hr
      exact hvfs
    | some f =>
      cases hr
      unfold install
      split
      · exact hvfs
      · exact hvfs

theorem vfs_close (v : View) (fd : ℤ) : (v.close fd).2.vfs = v.vfs := by
  unfold close
  split
  · rfl
  · rfl

theorem vfs_read (dev : Device) (fd : ℤ) (len : ℕ) (valid : Bool) :
    Post (v.read dev fd len valid) fun r => r.2.vfs = v.vfs := by
  unfold read
  split
  · exact .some rfl
  split
  · exact .some rfl
  split
  · exact .some rfl
  refine Post.forall_bind fun dentry => ?_
  cases dentry.dInode with
  | none => exact .some rfl
  | some i =>
    refine Post.forall_bind fun inode => ?_
    refine Post.map (P := fun _ => True) (fun _ _ => trivial) fun done _ => ?_
    cases done with
    | none => rfl
    | some done => rfl

/-- **A harmless call without `CAP_WRITE`** leaves the file system as it is. -/
theorem vfs_syscall (hcaps : caps &&& capWrite = 0) (h : call.Harmless pool root v.vfs) :
    Post (v.syscall pool root caps call) fun r => r.2.vfs = v.vfs := by
  unfold syscall
  split
  swap
  · exact .some rfl
  rename_i hperm
  cases call with
  | «open» path flags mode => exact vfs_openFile h
  | close fd => exact .some (vfs_close v fd)
  | read dev fd len valid => exact vfs_read dev fd len valid
  | write fd buf =>
    have hwrite : caps &&& capWrite = capWrite := eq_of_beq hperm
    exact absurd (hcaps.symm.trans hwrite) (by decide)
  | ls path valid buflen => exact Post.map (P := fun _ => True) (fun _ _ => trivial) fun _ _ => rfl

end View

/-! ## Runs -/

/-- The task that runs is one of these. -/
def Machine.callerIn (D : ℕ → Bool) (m : Machine) : Bool := D (m.kernel.sched.task m.current).pid

/-- The machine on which these tasks make no system calls on files. -/
def silentMachine (L : FdLayout) (D : ℕ → Bool) : System Machine MachineEvent where
  init := (machineSystem L).init
  allowed := (machineSystem L).allowed
  step m
    | .call call pool =>
      if m.callerIn D then some m else (machineSystem L).step m (.call call pool)
    | .table e pool => (machineSystem L).step m (.table e pool)

/-- If one of these tasks makes a call on files, it has no `CAP_WRITE`, and the call is harmless. -/
def MachineEvent.Harmless (D : ℕ → Bool) (m : Machine) : MachineEvent → Prop
  | .call c pool => m.callerIn D = true →
    (m.kernel.sched.task m.current).caps &&& capWrite = 0 ∧ c.Harmless pool m.root m.vfs
  | .table _ _ => True

/-- The runs in which these tasks have no `CAP_WRITE`, and open files harmlessly. -/
abbrev harmlessMachine (L : FdLayout) (D : ℕ → Bool) : System Machine MachineEvent :=
  (orderlyMachine L).restrict fun m e => e.Harmless D m

variable {e : MachineEvent}

namespace Machine

/-- **The others see the same on both machines.** -/
structure SeenAlike (D : ℕ → Bool) (m n : Machine) : Prop where
  kernel : n.kernel = m.kernel
  vfs : n.vfs = m.vfs
  /-- what each of the others has open -/
  fileAt : ∀ t, D (m.kernel.sched.task t).pid = false → n.fileAt t = m.fileAt t

/-- The same, with what holds in every run. -/
structure Alike (D : ℕ → Bool) (m n : Machine) : Prop extends SeenAlike D m n where
  /-- the run with all calls -/
  owns : m.Owns
  /-- the run without some of them -/
  owns' : n.Owns

variable {L : FdLayout} {D : ℕ → Bool} {m n m' : Machine}

/-- The view of another task is the same. -/
theorem SeenAlike.view (h : SeenAlike D m n) {t : TaskPtr}
    (ht : D (m.kernel.sched.task t).pid = false) : n.view t = m.view t := by
  rw [Machine.view, Machine.view, h.vfs, h.fileAt t ht]

/-- A call is a function of what the caller sees. -/
theorem Alike.syscall (h : Alike D m n) (hcaller : m.callerIn D = false) (pool : Pool)
    (call : FileCall) :
    (n.syscallHandler pool call).map (fun r => (r.1, r.2.view m.current)) =
      (m.syscallHandler pool call).map (fun r => (r.1, r.2.view m.current)) := by
  have hm := (shows_syscallHandler h.owns.accounted pool call).view
  have hn := (shows_syscallHandler h.owns'.accounted pool call).view
  have hview := h.view hcaller
  simp only [root, current, h.kernel] at hm hn hview ⊢
  rw [hm, hn, hview]

/-- **A call that is left out** makes no difference for the others. -/
theorem Alike.leaveOut (h : Alike D m n) (hcur : m.current ≠ .idle)
    (hcaller : m.callerIn D = true) {pool : Pool}
    (hharmless : (MachineEvent.call call pool).Harmless D m) :
    Post (m.syscallHandler pool call) fun r => Alike D r.2 n := by
  intro r hr
  obtain ⟨hcaps, hcall⟩ := hharmless hcaller
  have hshows := shows_syscallHandler h.owns.accounted pool call
  have hkernel := (calls_syscallHandler h.owns.accounted pool call r hr).kernel
  have hvfs : r.2.vfs = m.vfs := by
    refine View.vfs_syscall (v := m.view m.current) hcaps hcall (r.1, r.2.view m.current) ?_
    rw [← hshows.view, hr]
    rfl
  refine ⟨⟨h.kernel.trans hkernel.symm, h.vfs.trans hvfs.symm, fun t ht => ?_⟩,
    h.owns.call hcur pool call r hr, h.owns'⟩
  rw [hkernel] at ht
  have hne : t ≠ m.current := by
    rintro rfl
    exact Bool.false_ne_true (ht.symm.trans hcaller)
  exact (h.fileAt t ht).trans (hshows.others r hr t hne).symm

/-- **A call of another task** has the same effect on both machines. -/
theorem Alike.keep (h : Alike D m n) (hcur : m.current ≠ .idle) (hcaller : m.callerIn D = false)
    {pool : Pool} {r : ℤ × Machine} (hr : m.syscallHandler pool call = some r) :
    ∃ r', n.syscallHandler pool call = some r' ∧ Alike D r.2 r'.2 := by
  have hsame := h.syscall hcaller pool call
  rw [hr] at hsame
  obtain ⟨r', hr', hview⟩ := map_eq_some_iff.mp hsame
  have hview : r'.2.view m.current = r.2.view m.current := (Prod.mk.inj hview).2
  have hkernel := (calls_syscallHandler h.owns.accounted pool call r hr).kernel
  have hkernel' := (calls_syscallHandler h.owns'.accounted pool call r' hr').kernel
  have hcur' : n.current = m.current := congrArg (fun k => k.sched.currentTask) h.kernel
  refine ⟨r', hr', ⟨(hkernel'.trans h.kernel).trans hkernel.symm,
    congrArg View.vfs hview, fun t ht => ?_⟩, h.owns.call hcur pool call r hr,
    h.owns'.call (hcur' ▸ hcur) pool call r' hr'⟩
  rw [hkernel] at ht
  by_cases hne : t = m.current
  · rw [hne]
    exact congrArg View.table hview
  · have hm := (shows_syscallHandler h.owns.accounted pool call).others r hr t hne
    have hn := (shows_syscallHandler h.owns'.accounted pool call).others r' hr' t (hcur' ▸ hne)
    exact hn.trans ((h.fileAt t ht).trans hm.symm)

/-- Who is not there, or has ended, has no file open. -/
theorem Owns.fileAt_none (h : m.Owns) {t : TaskPtr} {fd : Fin fdMax}
    (ht : ¬((m.kernel.sched.task t).inUse = true ∧ (m.kernel.sched.task t).state ≠ .exited)) :
    m.fileAt t fd = none := by
  cases hid : m.fdTable t fd with
  | none => rw [fileAt, hid]; rfl
  | some id => exact absurd (h.live hid) ht

/-- The programs are found on both machines. -/
theorem exists_programs {pool : Pool} (l : List (CStr × FileRead)) :
    ∀ {m n m' : Machine}, n.kernel = m.kernel → n.vfs = m.vfs →
      l.foldlM (fun m p => m.readProgram pool p.1) m = some m' →
      ∃ n', l.foldlM (fun m p => m.readProgram pool p.1) n = some n' := by
  induction l with
  | nil => exact fun _ _ _ => ⟨_, rfl⟩
  | cons p l ih =>
    intro m n m' hkernel hvfs hm'
    obtain ⟨m1, hm1, hm'⟩ := bind_eq_some_iff.mp hm'
    obtain ⟨⟨f, w⟩, hopen, hm1⟩ := bind_eq_some_iff.mp hm1
    have hopen' : vfsOpen pool n.root p.1 0 n.vfs.enter = some (f, w) := by
      simp only [root, current, hkernel, hvfs]
      exact hopen
    have hread : ∃ n1, n.readProgram pool p.1 = some n1 ∧ n1.kernel = m1.kernel ∧
        n1.vfs = m1.vfs := by
      cases f with
      | none =>
        cases hm1
        exact ⟨_, bind_of_some hopen' _, hkernel, rfl⟩
      | some f =>
        cases hm1
        exact ⟨_, bind_of_some hopen' _, hkernel, rfl⟩
    obtain ⟨n1, hn1, hkernel1, hvfs1⟩ := hread
    obtain ⟨n', hn'⟩ := ih hkernel1 hvfs1 hm'
    exact ⟨n', (bind_of_some hn1 _).trans hn'⟩

/-- **Any other event** has the same effect on both machines. -/
theorem Alike.runTable (h : Alike D m n) {e : TableEvent}
    (hallowed : (tableSystem L.toLayout).allowed m.kernel e) (himg : e.ImagesOk) {pool : Pool}
    (hm' : m.runTable L pool e = some m') :
    ∃ n', n.runTable L pool e = some n' ∧ Alike D m' n' := by
  obtain ⟨hvfs, hstep, hfiles⟩ := fileAt_runTable h.owns hallowed himg pool m' hm'
  have hallowed' : (tableSystem L.toLayout).allowed n.kernel e := by
    rw [h.kernel]
    exact hallowed
  have hruns : ∃ n', n.runTable L pool e = some n' := by
    obtain ⟨m1, hm1, -⟩ := bind_eq_some_iff.mp hm'
    rw [← h.kernel] at hm1 hstep
    obtain ⟨n1, hn1⟩ := exists_programs _ h.kernel h.vfs hm1
    obtain ⟨hn1owns, hkernel1, -⟩ := h.owns'.programs pool _ n1 hn1
    rw [← hkernel1, ← (hn1owns.endTask e).2.1] at hstep
    exact ⟨_, (bind_of_some hn1 _).trans (bind_of_some hstep _)⟩
  obtain ⟨n', hn'⟩ := hruns
  obtain ⟨hvfs', hstep', hfiles'⟩ := fileAt_runTable h.owns' hallowed' himg pool n' hn'
  rw [h.kernel, hstep] at hstep'
  have howns := h.owns.runTable hallowed himg pool m' hm'
  refine ⟨n', hn', ⟨(some.inj hstep').symm, hvfs'.trans (h.vfs.trans hvfs.symm),
    fun t ht => ?_⟩, howns, h.owns'.runTable hallowed' himg pool n' hn'⟩
  funext fd
  rw [hfiles', hfiles, h.kernel]
  split
  · rfl
  rename_i hdead
  by_cases hlive : (m.kernel.sched.task t).inUse = true ∧ (m.kernel.sched.task t).state ≠ .exited
  · -- the task goes on, under its pid
    have hgoing := (Kernel.going_step h.owns.fits hallowed himg m'.kernel hstep).2
    rw [(hgoing t hdead hlive.1 hlive.2).2.1] at ht
    exact congrFun (h.fileAt t ht) fd
  · have hlive' : ¬((n.kernel.sched.task t).inUse = true ∧
        (n.kernel.sched.task t).state ≠ .exited) := by
      rw [h.kernel]
      exact hlive
    rw [h.owns.fileAt_none hlive, h.owns'.fileAt_none hlive']

/-- **One step of both machines.** -/
theorem Alike.step (h : Alike D m n) (hallowed : (harmlessMachine L D).allowed m e)
    (hm' : (harmlessMachine L D).step m e = some m') :
    (silentMachine L D).allowed n e ∧
      ∃ n', (silentMachine L D).step n e = some n' ∧ Alike D m' n' := by
  obtain ⟨⟨hallowed, himg⟩, hharmless⟩ := hallowed
  cases e with
  | call call pool =>
    have hcur : m.current ≠ .idle := hallowed
    have hcur' : n.current = m.current := congrArg (fun k => k.sched.currentTask) h.kernel
    refine ⟨(hcur' ▸ hcur : n.current ≠ .idle), ?_⟩
    obtain ⟨r, hr, rfl⟩ := map_eq_some_iff.mp hm'
    have hcaller : n.callerIn D = m.callerIn D := by
      simp only [callerIn, current, h.kernel]
    cases hin : m.callerIn D with
    | true => exact ⟨n, if_pos (hcaller.trans hin), h.leaveOut hcur hin hharmless r hr⟩
    | false =>
      obtain ⟨r', hr', halike⟩ := h.keep hcur hin hr
      refine ⟨r'.2, (if_neg ?_).trans (congrArg (Option.map Prod.snd) hr'), halike⟩
      rw [hcaller, hin]
      exact Bool.false_ne_true
  | table e pool =>
    refine ⟨⟨?_, fun p hp => ?_⟩, h.runTable hallowed.1 himg hm'⟩
    · rw [h.kernel]
      exact hallowed.1
    · rw [h.kernel] at hp
      have hopens := hallowed.2 p hp
      simp only [Opens, root, current, h.kernel, h.vfs] at hopens ⊢
      exact hopens

end Machine

/-- **The write capability is needed to change a file.** Let tasks without `CAP_WRITE` make any
system calls on files in a run, as long as they truncate none and make none: the file system is
then what it would be without those calls, each of the other tasks has the files open that it
would have, and any call gives it the reply that it would get. Nor does any other event change a
file, unless it is a call of one of the others. -/
theorem write_needed (L : FdLayout) (D : ℕ → Bool) {m₀ m : Machine} {es : List MachineEvent}
    (hreach : (orderlyMachine L).Reachable m₀) (hallowed : (harmlessMachine L D).AllowedRun m₀ es)
    (hrun : (machineSystem L).run m₀ es = some m) :
    ((silentMachine L D).AllowedRun m₀ es ∧ ∃ n, (silentMachine L D).run m₀ es = some n ∧
      m.SeenAlike D n ∧ ∀ pool call, m.callerIn D = false →
        (n.syscallHandler pool call).map Prod.fst = (m.syscallHandler pool call).map Prod.fst) ∧
    ∀ e m', (harmlessMachine L D).allowed m e → (machineSystem L).step m e = some m' →
      (∀ call pool, e = .call call pool → m.callerIn D = true) → m'.vfs = m.vfs := by
  have howns := owns_of_reachable hreach
  have hrun' : (harmlessMachine L D).run m₀ es = some m :=
    (System.run_restrict _ _).trans ((System.run_restrict _ _).trans hrun)
  have hinit : m₀.Alike D m₀ := ⟨⟨rfl, rfl, fun _ _ => rfl⟩, howns, howns⟩
  obtain ⟨hsilent, n, hn, halike⟩ := System.run_simulation (T := silentMachine L D)
    (fun _ _ _ _ h => Machine.Alike.step h) hinit hallowed hrun'
  refine ⟨⟨hsilent, n, hn, halike.toSeenAlike, fun pool call hcaller => ?_⟩,
    fun e m' hnext hm' hcall => ?_⟩
  · have hsame := congrArg (Option.map Prod.fst) (halike.syscall hcaller pool call)
    rw [map_map, map_map] at hsame
    exact hsame
  · cases e with
    | call call pool =>
      obtain ⟨r, hr, rfl⟩ := map_eq_some_iff.mp hm'
      have hafter := halike.leaveOut hnext.1.1 (hcall call pool rfl) hnext.2 r hr
      exact hafter.vfs.symm.trans halike.vfs
    | table e pool =>
      exact (fileAt_runTable halike.owns hnext.1.1.1 hnext.1.2 pool m' hm').1

/-! ## A sandbox -/

/-- The event loads no image. -/
def MachineEvent.plain (m : Machine) : MachineEvent → Bool
  | .call _ _ => decide (m.current ≠ .idle)
  | .table (.kernel (.syscall (.forkWithSandbox _))) _ => decide (m.current ≠ .idle)
  | .table (.kernel (.syscall (.wait _))) _ => decide (m.current ≠ .idle)
  | _ => false

theorem MachineEvent.allowed_of_plain {L : FdLayout} {m : Machine} (h : e.plain m = true) :
    (orderlyMachine L).allowed m e := by
  unfold MachineEvent.plain at h
  split at h
  · exact ⟨of_decide_eq_true (p := m.current ≠ .idle) h, trivial⟩
  · exact ⟨⟨of_decide_eq_true (p := m.current ≠ .idle) h, nofun⟩, trivial⟩
  · exact ⟨⟨of_decide_eq_true (p := m.current ≠ .idle) h, nofun⟩, trivial⟩
  · cases h

/-- The program writes a file, forks a child that may not write, and waits for it. -/
def forkReader : List MachineEvent :=
  [.ofCall (.open (some (cstr "/home/a")) oCreat 0), .ofCall (.write 3 (some [0x68, 0x69])),
    .ofKernel (.syscall (.forkWithSandbox (some { SandboxConfig.inherit with
      capsAllow := capUserDefault &&& ~~~capWrite }))),
    .ofKernel (.syscall (.wait (-1)))]

/-- The child runs, and has no `CAP_WRITE`. -/
def readerRuns (m : Machine) : Bool :=
  decide (m.current = .slot 1 ∧ (m.kernel.sched.task (.slot 1)).pid = 2 ∧
    (m.kernel.sched.task (.slot 1)).caps &&& capWrite = 0)

/-- The child opens the file, and reads it. -/
def readHome : List MachineEvent :=
  [.ofCall (.open (some (cstr "/home/a")) 0 0),
    .ofCall (.read ⟨fun _ => 0, .empty [] fun _ _ => 0, fun _ => 0, false⟩ 3 2 true)]

/-- A call by a task without `CAP_WRITE` that opens files for reading only. -/
def MachineEvent.reads (m : Machine) : MachineEvent → Bool
  | .call c _ => decide (m.current ≠ .idle ∧
      (m.kernel.sched.task m.current).caps &&& capWrite = 0) &&
    match c with
    | .open _ flags _ => flags == 0
    | _ => true
  | _ => false

theorem MachineEvent.allowed_of_reads {L : FdLayout} {D : ℕ → Bool} {m : Machine}
    (h : e.reads m = true) : (harmlessMachine L D).allowed m e := by
  cases e with
  | table e pool => cases h
  | call c pool =>
    obtain ⟨hcaller, hflags⟩ := Bool.and_eq_true_iff.mp h
    obtain ⟨hcur, hcaps⟩ := of_decide_eq_true hcaller
    refine ⟨⟨hcur, trivial⟩, fun _ => ⟨hcaps, ?_⟩⟩
    cases c with
    | «open» path flags mode =>
      obtain rfl : flags = 0 := eq_of_beq hflags
      cases path with
      | none => trivial
      | some path =>
        exact ⟨fun htrunc => absurd (Nat.zero_and oTrunc) htrunc,
          fun hcreat => absurd (Nat.zero_and oCreat) hcreat⟩
    | _ => trivial

/-- The child has the file open, at its end. -/
def hasRead (m : Machine) : Bool := (m.fileAt (.slot 1) 3).any fun f => f.fPos == 2

/-- The child reads the file; the others see what they would see without that. -/
theorem write_needed_reader : ∃ m₀ m n, (orderlyMachine fdLayout).Reachable m₀ ∧
    readerRuns m₀ = true ∧ (machineSystem fdLayout).run m₀ readHome = some m ∧ hasRead m = true ∧
    (silentMachine fdLayout fun pid => pid == 2).run m₀ readHome = some n ∧
    m.SeenAlike (fun pid => pid == 2) n := by
  obtain ⟨m₀, hm0, hruns, m, hm, hread⟩ := System.exists_reachable (S := orderlyMachine fdLayout)
    (fun m e => e.plain m) forkReader
    (fun m => readerRuns m ∧ ∃ m' ∈ (harmlessMachine fdLayout fun pid => pid == 2).checkedRun
      (fun m e => e.reads m) m readHome, hasRead m')
    (fun _ _ => MachineEvent.allowed_of_plain) reachable_programMachine (by decide +kernel)
  obtain ⟨hallowed, hrun⟩ :=
    System.allowedRun_of_checkedRun (fun _ _ => MachineEvent.allowed_of_reads) hm
  rw [System.run_restrict, System.run_restrict] at hrun
  obtain ⟨⟨-, n, hn, halike, -⟩, -⟩ := write_needed fdLayout _ hm0 hallowed hrun
  exact ⟨m₀, m, n, hm0, hruns, hrun, hread, hn, halike⟩

/-- The child opens the file and truncates it. -/
def truncHome : MachineEvent := .ofCall (.open (some (cstr "/home/a")) oTrunc 0)

/-- The child opens another, which is not there. -/
def makeHome : MachineEvent := .ofCall (.open (some (cstr "/home/b")) oCreat 0)

/-- The file is there, and loses its content. -/
def truncates (m m' : Machine) : Bool :=
  (m.vfs.memfsAt (cstr "/home/a")).any (fun min => min.size == 2) &&
    (m'.vfs.memfsAt (cstr "/home/a")).any (fun min => min.size == 0)

/-- The other file is not there, and appears. -/
def makes (m m' : Machine) : Bool :=
  (m.vfs.lookup (cstr "/home/b")).isNone && (m'.vfs.lookup (cstr "/home/b")).isSome

/-- **Files change without the capability to write**: one loses its content, one is made. -/
theorem changes_without_write : ∃ m m₁ m₂, (orderlyMachine fdLayout).Reachable m ∧
    readerRuns m = true ∧
    (machineSystem fdLayout).step m truncHome = some m₁ ∧ truncates m m₁ = true ∧
    (machineSystem fdLayout).step m₁ makeHome = some m₂ ∧ makes m₁ m₂ = true := by
  obtain ⟨m, hm, hruns, m₁, hm1, htrunc, m₂, hm2, hmakes⟩ := System.exists_reachable
    (S := orderlyMachine fdLayout) (fun m e => e.plain m) forkReader
    (fun m => readerRuns m ∧ ∃ m₁ ∈ (machineSystem fdLayout).step m truncHome, truncates m m₁ ∧
      ∃ m₂ ∈ (machineSystem fdLayout).step m₁ makeHome, makes m₁ m₂)
    (fun _ _ => MachineEvent.allowed_of_plain) reachable_programMachine (by decide +kernel)
  exact ⟨m, m₁, m₂, hm, hruns, hm1, htrunc, hm2, hmakes⟩

end PokuOS
