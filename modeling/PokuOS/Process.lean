import PokuOS.AddressSpace
import PokuOS.Caps
import PokuOS.Elf
import PokuOS.Sched

/-!
# Processes

`kernel/process.c`, with `task_exit`, the page fault handler and the calls of
`kernel/syscall.c` that change a task, over the scheduler and the page tables.

The kernel's tables lie in memory, at addresses every directory maps, and `elf_load` writes
where an image says. What such a write makes of the process table depends on where the linker
put it: a `Layout` says so, and all it has to satisfy is that memory which did not change
outside the user range leaves the table as it was.

Files are read through the file system; what a read gives is an argument here.
-/

namespace PokuOS

/-! ## State -/

/-- The scheduler and the page tables. Both know the loaded directory. -/
structure Kernel where
  /-- tasks, queues and watchdog -/
  sched : Sched
  /-- frames and page tables -/
  vm : Vm

/-- How the process table lies in memory. -/
structure Layout where
  /-- the table once memory has changed from the first to the second -/
  reload : Mem → Mem → Sched → Sched
  /-- it lies outside the user range -/
  reload_same : ∀ {m m' : Mem} (s : Sched), Mem.SameOff userRange m m' → reload m m' s = s

/-- What opening and reading an executable gives. -/
inductive FileRead where
  /-- it cannot be opened -/
  | missing
  /-- there is no memory for the buffer -/
  | noMemory
  /-- nothing can be read -/
  | unreadable
  /-- memory with the file in the buffer at `data` -/
  | image (mem : Mem) (data : ℕ)

variable {L : Layout}

namespace Kernel

/-- `load_cr3`. -/
def loadCr3 (k : Kernel) (pd : ℕ) : Kernel :=
  { sched := { k.sched with cr3 := pd }, vm := k.vm.loadCr3 pd }

@[simp] theorem task_loadCr3 (k : Kernel) (pd : ℕ) : (k.loadCr3 pd).sched.task = k.sched.task := rfl

/-- Change the scheduler; the directory it has loaded is loaded. -/
def setSched (k : Kernel) (s : Sched) : Kernel := { sched := s, vm := k.vm.loadCr3 s.cr3 }

/-- Change a task in place. -/
def modifyTask (k : Kernel) (t : TaskPtr) (f : Task → Task) : Kernel :=
  { k with sched := k.sched.modify t f }

/-- A user task becomes critical. -/
def makeCritical (task : Task) : Task :=
  if task.tier = .user then { task with tier := .critical } else task

/-- `vm_handle_pressure` has run if a frame could not be had: there are none left, so the
running task becomes critical if it is a user task. -/
def handlePressure (k : Kernel) : Kernel :=
  if k.vm.pressure then
    { sched := k.sched.modify k.sched.currentTask makeCritical,
      vm := { k.vm with pressure := false } }
  else k

/-- `elf_load` in the loaded directory: its result and `*entry`. -/
def runElfLoad (L : Layout) (k : Kernel) (mem : Mem) (data : ℕ) :
    Option (ℤ × Option ℕ × Kernel) :=
  match elfLoad loaderFuel ⟨k.vm, mem, []⟩ data with
  | (none, _, _) => none
  | (some r, entry, l) =>
    -- the register is not in memory
    some (r, entry,
      { sched := { L.reload mem l.mem k.sched with cr3 := k.sched.cr3 }, vm := l.vm })

/-! ## `sys_fork` -/

/-- The child's fields before the sandbox is applied. -/
def forkFields (parent : TaskPtr) (slot : Task) : Task :=
  { slot with timeslice := taskTimeslice, state := .ready, mlfqLevel := 0, parent := some parent,
              map := false, wdManaged := false }

/-- The child is given up. -/
def forkFail (k : Kernel) (child : Fin maxTasks) (code : ℤ) : ℤ × Kernel :=
  (code, ({ k with sched := k.sched.freeTaskSlot (.slot child) } : Kernel).handlePressure)

/-- `sys_fork` from the new directory on. -/
def forkCopy (k : Kernel) (child : Fin maxTasks) (pages : List (ℕ × Pte)) :
    Option (ℤ × Kernel) := do
  let parent := k.sched.task k.sched.currentTask
  let (pd, vm) ← k.vm.pagingCreateTaskPd
  match pd with
  | none => return forkFail { k with vm := vm } child (-1)
  | some pd => do
    let (ok, vm) ← (vm.loadCr3 pd).copyPages pages
    if ok then
      let s := k.sched.modify (.slot child) fun task =>
        { task with cr3 := pd, userEntry := parent.userEntry, userStack := parent.userStack,
                    pagesCharged := pages.length }
      let k := ({ sched := s, vm := vm } : Kernel).loadCr3 parent.cr3
      return ((s.task (.slot child)).pid, { k with sched := k.sched.enqueueTask (.slot child) })
    else
      let k : Kernel := { k with vm := vm.teardownCurrentPd pd parent.cr3 }
      return forkFail (k.loadCr3 parent.cr3) child (-1)

/-- `sys_fork`. -/
def sysFork (k : Kernel) (sb : SandboxConfig) : Option (ℤ × Kernel) :=
  let pages := k.vm.userPages
  if maxUserPages < pages.length then some (-1, k)
  else
    match k.sched.createTaskSlot with
    | (none, _) => some (-1, k)
    | (some child, s) =>
      let parent := s.currentTask
      match applySandbox (s.task parent) (forkFields parent (s.task (.slot child))) sb with
      | .error code => some (forkFail { k with sched := s } child code)
      | .ok fields =>
        let k : Kernel := { k with sched := s.modify (.slot child) fun _ => fields }
        let limitPages := fields.memLimit / pageSize % 2 ^ 32
        if limitPages ≠ 0 ∧ limitPages < pages.length then some (forkFail k child (-1))
        else k.forkCopy child pages

/-! ## `sys_exec` -/

/-- `MAX_EXEC_ARGS`. -/
def maxExecArgs : ℕ := 8

/-- `build_arg_stack`: the stack pointer it returns. -/
def buildArgStack (argv : List CStr) : ℕ :=
  let args := (argv.take maxExecArgs).takeWhile fun arg => !arg.isEmpty
  let sp := userStackVirt + pageSize - (args.map fun arg => arg.length + 1).sum
  sp / 4 * 4 - (args.length + 1) * 4 - 4

/-- A directory that was being built is given up. -/
def freeBuiltPd (k : Kernel) (pd targetCr3 : ℕ) : Kernel :=
  (({ k with vm := k.vm.teardownCurrentPd pd targetCr3 } : Kernel).loadCr3 targetCr3).handlePressure

/-- The tier after `exec`: an override keeps it, else it goes by the file's name. -/
def execTier (s : Sched) (t : TaskPtr) (resolved : CStr) : Option Sched :=
  if (s.task t).tierOverride < 0 ∧ elfAssignTier resolved ≠ (s.task t).tier then
    s.taskSetTier t (elfAssignTier resolved)
  else some s

theorem execTier_same {s : Sched} {t : TaskPtr} {resolved : CStr}
    (h : elfAssignTier resolved = (s.task t).tier) : execTier s t resolved = some s :=
  if_neg fun hc => hc.2 h

/-- The running task is in no queue it would have to leave. -/
theorem execTier_of_running {s : Sched} {t : TaskPtr} {resolved : CStr}
    (hover : (s.task t).tierOverride < 0) (hstate : (s.task t).state = .running)
    (hne : elfAssignTier resolved ≠ (s.task t).tier) :
    execTier s t resolved =
      some (s.modify t fun task => { task with tier := elfAssignTier resolved }) := by
  rw [execTier, if_pos ⟨hover, hne⟩, Sched.taskSetTier, if_neg]
  rintro ⟨-, hready, -⟩
  cases hstate.symm.trans hready

/-- `sys_exec` once the image and the stack page are in the new directory `pd`. -/
def execSwap (k : Kernel) (t : TaskPtr) (pd entry : ℕ) (resolved : CStr) (argv : List CStr) :
    Option (ℤ × Kernel) := do
  let oldPd := (k.sched.task t).cr3
  let vm := ((k.vm.loadCr3 oldPd).teardownCurrentPd oldPd k.sched.pageDirectory).loadCr3 pd
  -- `build_arg_stack` writes to the stack page
  if vm.pagePresent userStackVirt then do
    let s := k.sched.modify t fun task =>
      { task with cr3 := pd, userEntry := entry, userStack := buildArgStack argv, map := false,
                  pagesCharged := vm.countUserPages }
    let s ← execTier s t resolved
    return (0, ({ sched := s, vm := vm } : Kernel).loadCr3 pd)
  else none

/-- `sizeof(resolved)`. -/
def resolvedSize : ℕ := 128

/-- `sys_exec`. -/
def sysExec (L : Layout) (k : Kernel) (path : CStr) (argv : List CStr) (file : FileRead) :
    Option (ℤ × Kernel) :=
  let t := k.sched.currentTask
  let resolved := resolvePath (k.sched.task t).rootPath path resolvedSize
  match file with
  | .missing => some (-eNoent, k)
  | .noMemory => some (-eNomem, k)
  | .unreadable => some (-eIo, k)
  | .image mem data => do
    let (pd, vm) ← k.vm.pagingCreateTaskPd
    match pd with
    | none => return (-eNomem, ({ k with vm := vm } : Kernel).handlePressure)
    | some pd => do
      let (r, entry, k) ← (({ k with vm := vm } : Kernel).loadCr3 pd).runElfLoad L mem data
      if r ≠ 0 then return (-eNoexec, k.freeBuiltPd pd (k.sched.task t).cr3)
      else
        match k.vm.allocPageFrame with
        | (none, vm) =>
          return (-eNomem, ({ k with vm := vm } : Kernel).freeBuiltPd pd (k.sched.task t).cr3)
        | (some stack, vm) =>
          ({ k with vm := vm.mapPage userStackVirt stack true } : Kernel).execSwap t pd
            (entry.getD 0) resolved argv

/-- The directory, the entry point and the kernel when `sys_exec` has loaded image and stack
page, if it comes so far. -/
def execLoaded (L : Layout) (k : Kernel) (mem : Mem) (data : ℕ) :
    Option (ℕ × Option ℕ × Kernel) := do
  let (pd, vm) ← k.vm.pagingCreateTaskPd
  match pd with
  | none => none
  | some pd => do
    let (r, entry, k) ← (({ k with vm := vm } : Kernel).loadCr3 pd).runElfLoad L mem data
    match k.vm.allocPageFrame with
    | (none, _) => none
    | (some stack, vm) =>
      if r ≠ 0 then none
      else some (pd, entry, { k with vm := vm.mapPage userStackVirt stack true })

/-- The new directory is not the old one, and has the stack page. -/
def stackReady (old pd : ℕ) (vm : Vm) : Bool :=
  decide (pd ≠ old) && (vm.entry pd (pdIdx userStackVirt)).all (fun pde => pde.frame != old) &&
    (vm.loadCr3 pd).pagePresent userStackVirt

section

variable {k k1 : Kernel} {mem : Mem} {data pd : ℕ} {entry : Option ℕ}
  (h : k.execLoaded L mem data = some (pd, entry, k1))
include h

theorem sysExec_eq_execSwap {path : CStr} {argv : List CStr} :
    k.sysExec L path argv (.image mem data) =
      k1.execSwap k.sched.currentTask pd (entry.getD 0)
        (resolvePath (k.sched.task k.sched.currentTask).rootPath path resolvedSize) argv := by
  obtain ⟨⟨pd', vm⟩, hpd, h⟩ := Option.bind_eq_some_iff.mp h
  cases pd' with
  | none => cases h
  | some pd' =>
    obtain ⟨⟨r, entry', k2⟩, hload, h⟩ := Option.bind_eq_some_iff.mp h
    refine (bind_of_some hpd _).trans ((bind_of_some hload _).trans ?_)
    rcases halloc : k2.vm.allocPageFrame with ⟨stack, vm1⟩
    cases stack with
    | none =>
      simp only [halloc] at h
      cases h
    | some stack =>
      simp only [halloc] at h ⊢
      split at h
      · cases h
      · rename_i hr
        rw [if_neg hr]
        obtain ⟨rfl, rfl, rfl⟩ : pd' = pd ∧ entry' = entry ∧
            ({ k2 with vm := vm1.mapPage userStackVirt stack true } : Kernel) = k1 := by
          simpa using h
        rfl

/-- **`sys_exec` of an image that could be loaded returns**: what is left of the call is setting
the task's fields. -/
theorem sysExec_loaded (path : CStr) (argv : List CStr)
    (hready : stackReady (k1.sched.task k.sched.currentTask).cr3 pd k1.vm) :
    ∃ vm pages, k.sysExec L path argv (.image mem data) =
      (execTier (k1.sched.modify k.sched.currentTask fun task =>
          { task with cr3 := pd, userEntry := entry.getD 0, userStack := buildArgStack argv,
                      map := false, pagesCharged := pages }) k.sched.currentTask
        (resolvePath (k.sched.task k.sched.currentTask).rootPath path resolvedSize)).map
        fun s => (0, ({ sched := s, vm := vm } : Kernel).loadCr3 pd) := by
  unfold stackReady at hready
  simp only [Bool.and_eq_true, decide_eq_true_eq, Option.all_eq_true, bne_iff_ne] at hready
  obtain ⟨⟨hold, htable⟩, hstack⟩ := hready
  have hpresent := Vm.pagePresent_teardown k1.vm k1.sched.pageDirectory hold htable
  rw [hstack] at hpresent
  rw [sysExec_eq_execSwap h]
  exact ⟨_, _, (if_pos hpresent).trans Option.map_eq_bind.symm⟩

end

/-! ## `spawn_user_process` -/

/-- What `create_task` puts into a slot. -/
def createTaskFields (pageDirectory : ℕ) (slot : Task) : Task :=
  { slot with timeslice := taskTimeslice, state := .ready, cr3 := pageDirectory, tier := .user,
              next := none, map := false, mlfqLevel := 0, mlfqContTicks := 0,
              caps := capUserDefault, memLimit := 0, cpuQuota := 0, pagesCharged := 0,
              quotaUsedTicks := 0, quotaDone := false, wdManaged := false, parent := none,
              tierOverride := -1, rootPath := [] }

/-- The capabilities a spawned task gets. -/
def spawnCaps (assigned : Tier) : BitVec 32 :=
  if assigned = .system then capSystemDefault else capUserDefault

/-- `spawn_user_process` once the image and the stack page are in the directory `pd`. `mapped`
says whether `vm_map_create` had memory for the map. -/
def spawnTask (k : Kernel) (path : CStr) (pd oldCr3 entry : ℕ) (mapped : Bool) :
    Option (Fin maxTasks) × Kernel :=
  match k.sched.createTaskSlot with
  | (none, _) => (none, k.loadCr3 oldCr3)
  | (some i, s) =>
    let vm := if mapped then k.vm.vmScanUserPages.vmProtectReadonly else k.vm
    let assigned := elfAssignTier path
    let s := s.modify (.slot i) fun slot =>
      { createTaskFields s.pageDirectory slot with
        map := mapped, pagesCharged := vm.countUserPages, cr3 := pd, userEntry := entry,
        userStack := userStackVirt + pageSize - 8, tier := assigned, caps := spawnCaps assigned }
    let k := ({ sched := s, vm := vm } : Kernel).loadCr3 oldCr3
    (some i, { k with sched := k.sched.enqueueTask (.slot i) })

/-- `spawn_user_process`; its failures give nothing back. -/
def spawnUserProcess (L : Layout) (k : Kernel) (path : CStr) (file : FileRead) (mapped : Bool) :
    Option (Option (Fin maxTasks) × Kernel) :=
  match file with
  | .missing | .noMemory | .unreadable => some (none, k)
  | .image mem data => do
    let (pd, vm) ← k.vm.pagingCreateTaskPd
    match pd with
    | none => return (none, ({ k with vm := vm } : Kernel).handlePressure)
    | some pd => do
      let oldCr3 := vm.cr3
      let (r, entry, k) ← (({ k with vm := vm } : Kernel).loadCr3 pd).runElfLoad L mem data
      if r ≠ 0 then return (none, (k.loadCr3 oldCr3).handlePressure)
      else
        match k.vm.allocPageFrame with
        | (none, vm) =>
          return (none, (({ k with vm := vm } : Kernel).loadCr3 oldCr3).handlePressure)
        | (some stack, vm) =>
          let vm := vm.mapPage userStackVirt stack true
          -- the empty argument frame is written to the stack page
          if vm.pagePresent userStackVirt then
            return ({ k with vm := vm } : Kernel).spawnTask path pd oldCr3 (entry.getD 0) mapped
          else none

/-! ## Ending, waiting, faults -/

/-- `schedule`. -/
def schedule (k : Kernel) : Option Kernel := do
  let s ← k.sched.schedule
  return k.setSched s

/-- `task_exit`. -/
def taskExit (k : Kernel) (code : ℤ) : Option Kernel := do
  let pd := (k.sched.task k.sched.currentTask).cr3
  let s ← k.sched.exitCurrent code
  ({ sched := s, vm := k.vm.teardownCurrentPd pd k.sched.pageDirectory } : Kernel).schedule

/-- `pit_handler`. -/
def pitHandler (k : Kernel) : Option Kernel :=
  if (k.sched.task k.sched.currentTask).killPending then
    ({ k with sched := { k.sched with tickCount := (k.sched.tickCount + 1) % 2 ^ 32 } }.modifyTask
      k.sched.currentTask fun task => { task with killPending := false }).taskExit (-9)
  else do
    let s ← k.sched.pitHandler
    (k.setSched s).schedule

/-- `page_fault_handler` for a fault in user mode: a write to a present page of a task with a
map may be repaired, and every other fault ends the task. -/
def pageFault (k : Kernel) (vaddr : ℕ) (present write : Bool) : Option Kernel :=
  if (k.sched.task k.sched.currentTask).map ∧ present ∧ write then do
    let (r, vm) ← k.vm.vmFaultCow vaddr
    let k := ({ k with vm := vm } : Kernel).handlePressure
    if r = 0 then return k else k.taskExit 14
  else k.taskExit 14

/-- `task_find_child`; `-1` is any child. -/
def taskFindChild (s : Sched) (parent : TaskPtr) (pid : ℤ) : Option (Fin maxTasks) :=
  (List.finRange maxTasks).find? fun i =>
    let task := s.task (.slot i)
    task.inUse && task.parent == some parent && (pid == -1 || (task.pid : ℤ) == pid)

/-- One round of `sys_wait`. -/
def sysWait (k : Kernel) (pid : ℤ) : Option Kernel :=
  match taskFindChild k.sched k.sched.currentTask pid with
  | none => some k
  | some i =>
    if (k.sched.task (.slot i)).state = .exited then
      some { k with sched := k.sched.freeTaskSlot (.slot i) }
    else do
      let s ← k.sched.waitCurrent
      (k.setSched s).schedule

/-- `sys_kill_fn`. -/
def sysKill (k : Kernel) (pid : ℤ) : Kernel :=
  match taskFindChild k.sched k.sched.currentTask pid with
  | none => k
  | some i =>
    if (k.sched.task (.slot i)).state = .exited then k
    else k.modifyTask (.slot i) fun task => { task with killPending := true }

/-- `sys_tier_request_fn`. -/
def sysTierRequest (k : Kernel) (tier : ℕ) : Option Kernel :=
  if 3 < tier then some k
  else do
    let s ← k.sched.taskSetTier k.sched.currentTask (tierOfInt tier)
    return { k with sched := s }

/-- `sys_set_tier_fn`. -/
def sysSetTier (k : Kernel) (tier : ℕ) : Option Kernel :=
  if 3 < tier then some k
  else do
    let s ← k.sched.taskSetTier k.sched.currentTask (tierOfInt tier)
    return { k with sched := s.modify k.sched.currentTask fun task =>
      { task with tierOverride := tier } }

/-- `expand_heap` for the page at `vaddr`. -/
def expandHeap (k : Kernel) (vaddr : ℕ) : Kernel :=
  match k.vm.allocPageFrame with
  | (none, vm) => ({ k with vm := vm } : Kernel).handlePressure
  | (some f, vm) => { k with vm := vm.mapPage vaddr f false }

end Kernel

/-! ## The system -/

/-- A system call with its arguments. -/
inductive Call where
  /-- `SYS_FORK` -/
  | fork
  /-- `SYS_FORK_WITH_SANDBOX`; `none` is a configuration that cannot be copied -/
  | forkWithSandbox (sb : Option SandboxConfig)
  /-- `SYS_EXEC`; no path or argument vector is one that cannot be copied -/
  | exec (path : Option CStr) (argv : List CStr) (file : FileRead)
  /-- `SYS_EXIT` -/
  | exit (code : ℤ)
  /-- `SYS_WAIT` -/
  | wait (pid : ℤ)
  /-- `SYS_YIELD` -/
  | yield
  /-- `SYS_KILL` -/
  | kill (pid : ℤ)
  /-- `SYS_TIER_REQUEST` -/
  | tierRequest (tier : ℕ)
  /-- `SYS_SET_TIER` -/
  | setTier (tier : ℕ)
  /-- a call that changes neither tasks nor page tables -/
  | other (nr : SyscallNr)

/-- The number of a call. -/
def Call.nr : Call → SyscallNr
  | fork => .fork
  | forkWithSandbox _ => .forkWithSandbox
  | exec _ _ _ => .exec
  | exit _ => .exit
  | wait _ => .wait
  | yield => .yield
  | kill _ => .kill
  | tierRequest _ => .tierRequest
  | setTier _ => .setTier
  | other nr => nr

namespace Kernel

/-- A call that has passed the gate. -/
def perform (L : Layout) (k : Kernel) : Call → Option Kernel
  | .fork => (k.sysFork .inherit).map Prod.snd
  | .forkWithSandbox none => some k
  | .forkWithSandbox (some sb) => (k.sysFork sb).map Prod.snd
  | .exec none _ _ => some k
  | .exec (some path) argv file => (k.sysExec L path argv file).map Prod.snd
  | .exit code => k.taskExit code
  | .wait pid => k.sysWait pid
  | .yield => do
    let s ← k.sched.yieldCurrent
    (k.setSched s).schedule
  | .kill pid => some (k.sysKill pid)
  | .tierRequest tier => k.sysTierRequest tier
  | .setTier tier => k.sysSetTier tier
  | .other _ => some k

/-- `syscall_handler`. -/
def syscallHandler (L : Layout) (k : Kernel) (call : Call) : Option Kernel :=
  if permitted (k.sched.task k.sched.currentTask).caps call.nr then k.perform L call else some k

end Kernel

/-- What happens to the kernel. -/
inductive KernelEvent where
  /-- the running task makes a system call -/
  | syscall (call : Call)
  /-- the timer interrupt -/
  | tick
  /-- a fault in user mode -/
  | fault (vaddr : ℕ) (present write : Bool)
  /-- the kernel starts a program, at boot or for the watchdog -/
  | spawn (path : CStr) (file : FileRead) (mapped : Bool)
  /-- `watchdog_register` -/
  | register (path : CStr) (tier : Tier) (i : Option (Fin maxTasks))
  /-- the heap grows -/
  | expandHeap (vaddr : ℕ)
  /-- `schedule` of the idle loop -/
  | schedule

/-- What an event does. -/
def KernelEvent.apply (L : Layout) (k : Kernel) : KernelEvent → Option Kernel
  | syscall call => k.syscallHandler L call
  | tick => k.pitHandler
  | fault vaddr present write => k.pageFault vaddr present write
  | spawn path file mapped => (k.spawnUserProcess L path file mapped).map Prod.snd
  | register path tier i =>
    some { k with sched := (k.sched.watchdogRegister path tier (i.map .slot)).2 }
  | expandHeap vaddr => some (k.expandHeap vaddr)
  | schedule => k.schedule

/-- A call of `sys_exec` that passes the gate. -/
theorem Kernel.apply_exec {k k1 : Kernel} {path : CStr} {argv : List CStr} {file : FileRead}
    {r : ℤ} (hperm : permitted (k.sched.task k.sched.currentTask).caps .exec)
    (h : k.sysExec L path argv file = some (r, k1)) :
    (KernelEvent.syscall (.exec (some path) argv file)).apply L k = some k1 :=
  (if_pos hperm).trans (congrArg (Option.map Prod.snd) h)

end PokuOS
