import PokuOS.Task
import PokuOS.Transition

/-!
# The scheduler

`kernel/sched.c`, the parts of `kernel/task.c` that create, change and end tasks, and the
watchdog's tick, which runs in the timer interrupt.

`switch_to` saves one context and resumes another; a function that calls `schedule` goes on
from there when its task is picked again. Each system call and each interrupt is therefore an
event of its own, and what a resumed task does next is the next event.

Two things `task_exit` does outside the scheduler are not here: closing files and freeing the
address space.
-/

namespace PokuOS

/-- `MLFQ_AGING_TICKS`. -/
def mlfqAgingTicks : ℕ := 300

/-- `MLFQ_DEMOTE_TICKS`. -/
def mlfqDemoteTicks : ℕ := 3

/-- `QUOTA_PERIOD_TICKS`. -/
def quotaPeriodTicks : ℕ := 1000

/-- `TASK_TIMESLICE`. -/
def taskTimeslice : ℤ := 20

/-- `WD_MAX`. -/
def wdMax : ℕ := 8

/-- `WD_MAX_RESTARTS`. -/
def wdMaxRestarts : ℕ := 5

/-- `WD_UNSTABLE_LIMIT`. -/
def wdUnstableLimit : ℕ := 3

/-- `WD_BACKOFF_BASE`. -/
def wdBackoffBase : ℕ := 5

/-- `WD_UNSTABLE_TICKS`. -/
def wdUnstableTicks : ℕ := 10

/-- `tier_timeslice`. -/
def tierTimeslice (t : Task) : ℤ :=
  match t.tier with
  | .kernel => 1
  | .system => 2
  | .critical => 2
  | .user => 3 - (clampLevel t.mlfqLevel).val

namespace Sched

/-! ## Slots -/

/-- `create_task_slot`. -/
def createTaskSlot (s : Sched) : Option (Fin maxTasks) × Sched :=
  match (List.finRange maxTasks).find? fun i => !(s.task (.slot i)).inUse with
  | none => (none, s)
  | some i =>
    let s := s.modify (.slot i) fun _ =>
      { Task.zero with inUse := true, curQueue := none, pid := s.pidCounter }
    (some i, { s with pidCounter := s.pidCounter + 1 })

/-- Slot `i` is new in `s'`. -/
structure NewSlot (s s' : Sched) (i : Fin maxTasks) : Prop where
  /-- it was free -/
  free : (s.task (.slot i)).inUse = false
  /-- it is cleared, with the next identity -/
  slot : s'.task (.slot i) =
    { Task.zero with inUse := true, curQueue := none, pid := s.pidCounter }
  /-- the other tasks are unchanged -/
  others : ∀ t, t ≠ .slot i → s'.task t = s.task t
  /-- identities go up -/
  pidCounter : s'.pidCounter = s.pidCounter + 1
  currentTask : s'.currentTask = s.currentTask
  pageDirectory : s'.pageDirectory = s.pageDirectory
  cr3 : s'.cr3 = s.cr3

theorem newSlot_of_createTaskSlot {s s' : Sched} {i : Fin maxTasks}
    (h : s.createTaskSlot = (some i, s')) : NewSlot s s' i := by
  unfold createTaskSlot at h
  split at h
  · cases (Prod.mk.inj h).1
  · rename_i j hfind
    obtain ⟨hi, rfl⟩ := Prod.mk.inj h
    cases hi
    exact ⟨by simpa using List.find?_some hfind, Function.update_self ..,
      fun t ht => Function.update_of_ne ht .., rfl, rfl, rfl, rfl⟩

theorem createTaskSlot_none {s s' : Sched} (h : s.createTaskSlot = (none, s')) : s' = s := by
  unfold createTaskSlot at h
  split at h
  · exact (Prod.mk.inj h).2.symm
  · cases (Prod.mk.inj h).1

theorem wdTable_of_createTaskSlot {s s' : Sched} {i : Option (Fin maxTasks)}
    (h : s.createTaskSlot = (i, s')) : s'.wdTable = s.wdTable := by
  unfold createTaskSlot at h
  split at h
  · rw [← (Prod.mk.inj h).2]
  · rw [← (Prod.mk.inj h).2]
    rfl

/-- `free_task_slot`; the idle task is not in the table. -/
def freeTaskSlot (s : Sched) : TaskPtr → Sched
  | .idle => s
  | .slot i => s.modify (.slot i) fun _ => Task.zero

theorem task_freeTaskSlot (s : Sched) (i : Fin maxTasks) (t : TaskPtr) :
    (s.freeTaskSlot (.slot i)).task t = if t = .slot i then Task.zero else s.task t := by
  rw [freeTaskSlot, task_modify]

theorem freeTaskSlot_modify (s : Sched) (i : Fin maxTasks) (f : Task → Task) :
    (s.modify (.slot i) f).freeTaskSlot (.slot i) = s.modify (.slot i) fun _ => Task.zero :=
  modify_modify s (.slot i) f fun _ => Task.zero

/-! ## `schedule` -/

/-- `set_task_timeslice`. -/
def setTaskTimeslice (s : Sched) (t : TaskPtr) : Sched :=
  s.modify t fun task => { task with timeslice := tierTimeslice task }

/-- `switch_to_task`. -/
def switchToTask (s : Sched) (next : TaskPtr) : Sched :=
  let s := { s with currentTask := next }
  let s := (s.setState next .running).setTaskTimeslice next
  { s with cr3 := (s.task next).cr3 }

/-- `pick_next_task`, with the idle task when there is nothing to run. -/
def pickOrIdle (s : Sched) : Option (TaskPtr × Sched) := do
  let (cand, s) ← s.pickNextTask
  return (cand.getD .idle, s)

/-- `prev` goes back to the end of its queue. -/
def requeue (s : Sched) (prev : TaskPtr) : Sched := (s.setState prev .ready).enqueueTask prev

/-- The time slice of `prev` is used up. -/
def expire (s : Sched) (prev : TaskPtr) (prevQ : Fin nrQueues) : Option Sched := do
  let (cand, s) ← (s.requeue prev).pickOrIdle
  if cand = prev then do
    -- only `prev` itself: a lower queue may have one slice
    let (lower, s) ← s.pickNextLower (prevQ + 1)
    match lower with
    | some lower => return (s.enqueueTask prev).switchToTask lower
    | none => return s.setTaskTimeslice prev
  else return s.switchToTask cand

/-- `schedule` from the running task on: preemption, then the time slice. -/
def scheduleRunning (s : Sched) (prev : TaskPtr) : Option Sched := do
  let s ← s.dequeueTask prev
  let prevQ := taskQidx (s.task prev)
  let s := s.modify prev fun task =>
    if 0 < task.timeslice then { task with timeslice := task.timeslice - 1 } else task
  let cand ← s.peekNextTask
  if cand.any fun cand => taskQidx (s.task cand) < prevQ then do
    let (cand, s) ← (s.requeue prev).pickOrIdle
    return s.switchToTask cand
  else if (s.task prev).timeslice ≤ 0 then s.expire prev prevQ
  else return s

/-- `schedule`. -/
def schedule (s : Sched) : Option Sched :=
  let prev := s.currentTask
  if prev = .idle then do
    let (cand, s) ← s.pickNextTask
    match cand with
    | none => return s
    | some cand => return s.switchToTask cand
  else
    match (s.task prev).state with
    | .exited => do
      let (cand, s) ← s.pickOrIdle
      return s.switchToTask cand
    | .waiting => do
      let s ← s.dequeueTask prev
      let (cand, s) ← s.pickOrIdle
      return s.switchToTask cand
    | _ => s.scheduleRunning prev

/-! ## Tiers and levels -/

/-- `task_set_tier`. -/
def taskSetTier (s : Sched) (t : TaskPtr) (tier : Tier) : Option Sched :=
  let oldq := taskQidx (s.task t)
  let newq := queueIdx tier (s.task t).mlfqLevel
  if oldq ≠ newq ∧ (s.task t).state = .ready ∧ t ≠ s.currentTask then do
    let s ← s.dequeueTask t
    return (s.modify t fun task => { task with tier := tier }).enqueueTask t
  else some (s.modify t fun task => { task with tier := tier })

/-- `task_set_mlfq_level`. -/
def taskSetMlfqLevel (s : Sched) (t : TaskPtr) (level : ℤ) : Option Sched :=
  let level : ℤ := (clampLevel level).val
  if (s.task t).mlfqLevel = level then some s
  else
    let oldq := taskQidx (s.task t)
    let s := s.modify t fun task => { task with mlfqLevel := level }
    let newq := taskQidx (s.task t)
    if oldq ≠ newq ∧ (s.task t).state = .ready ∧ t ≠ s.currentTask then do
      let s ← s.dequeueTask t
      return s.enqueueTask t
    else some s

/-- The body of the loop of `task_mlfq_aging`. -/
def ageTask (s : Sched) (i : Fin maxTasks) : Option Sched :=
  let task := s.task (.slot i)
  if task.inUse ∧ task.tier = .user ∧ 0 < task.mlfqLevel ∧ ¬ task.quotaDone ∧
      (task.state = .ready ∨ task.state = .running) then
    s.taskSetMlfqLevel (.slot i) (task.mlfqLevel - 1)
  else some s

/-- `task_mlfq_aging`. -/
def taskMlfqAging (s : Sched) : Option Sched := (List.finRange maxTasks).foldlM ageTask s

/-- `task_quota_period_reset`. -/
def taskQuotaPeriodReset (s : Sched) : Sched :=
  { s with task := fun t =>
      match t with
      | .idle => s.task .idle
      | .slot i =>
        if (s.task (.slot i)).inUse then
          { s.task (.slot i) with quotaUsedTicks := 0, quotaDone := false }
        else s.task (.slot i) }

/-! ## The watchdog's table and tick -/

/-- `watchdog_register`, with its result. -/
def watchdogRegister (s : Sched) (path : CStr) (tier : Tier) (initialTask : Option TaskPtr) :
    ℤ × Sched :=
  if wdMax ≤ s.wdTable.length then (-1, s)
  else
    let e : WdEntry :=
      { path := path, tier := tier, task := initialTask, restarts := 0, unstable := 0,
        delayTicks := 0, spawnDue := false, active := true, spawnTick := s.wdTick }
    let s := { s with wdTable := s.wdTable ++ [e] }
    match initialTask with
    | none => (0, s)
    | some t => (0, s.modify t fun task => { task with wdManaged := true })

/-- The watchdog gives an entry up. -/
def wdGiveUp (e : WdEntry) : WdEntry := { e with task := none, active := false }

/-- The body of the loop of `watchdog_tick`. -/
def wdEntryTick (s : Sched) (e : WdEntry) : WdEntry × Sched :=
  if !e.active then (e, s)
  else if e.task.any fun t => (s.task t).state ≠ .exited then (e, s)
  else if 0 < e.delayTicks then
    let delay := e.delayTicks - 1
    ({ e with delayTicks := delay, spawnDue := if delay = 0 then true else e.spawnDue }, s)
  else
    match e.task with
    | none => ({ e with spawnDue := true }, s)
    | some t =>
      let life := (s.wdTick + 2 ^ 32 - e.spawnTick) % 2 ^ 32
      let e := { e with unstable := if life < wdUnstableTicks then e.unstable + 1 else 0 }
      if wdUnstableLimit ≤ e.unstable then (wdGiveUp e, s.freeTaskSlot t)
      else
        let e := { e with restarts := e.restarts + 1 }
        if wdMaxRestarts < e.restarts then (wdGiveUp e, s.freeTaskSlot t)
        else
          ({ e with delayTicks := wdBackoffBase * 2 ^ (e.restarts - 1), task := none },
            s.freeTaskSlot t)

/-- One round of `watchdog_tick` frees at most the slot of a task that has ended. -/
theorem wdEntryTick_cases (s : Sched) (e : WdEntry) :
    (s.wdEntryTick e).2 = s ∨
      ∃ t, (s.task t).state = .exited ∧ (s.wdEntryTick e).2 = s.freeTaskSlot t := by
  unfold wdEntryTick
  split
  · exact .inl rfl
  split
  · exact .inl rfl
  split
  · exact .inl rfl
  rename_i hstate _
  cases htask : e.task with
  | none => exact .inl rfl
  | some t =>
    refine .inr ⟨t, by simpa [htask] using hstate, ?_⟩
    simp only
    split_ifs <;> rfl

/-- The loop of `watchdog_tick`. -/
def wdTickAll (s : Sched) : List WdEntry → List WdEntry × Sched
  | [] => ([], s)
  | e :: es =>
    let (e, s) := s.wdEntryTick e
    let (es, s) := s.wdTickAll es
    (e :: es, s)

/-- `watchdog_tick`. -/
def watchdogTick (s : Sched) : Sched :=
  let s := { s with wdTick := (s.wdTick + 1) % 2 ^ 32 }
  let (table, s) := s.wdTickAll s.wdTable
  { s with wdTable := table }

/-! ## Ending, yielding, waiting -/

/-- The parent of a task that ends is woken when it waits. -/
def wakeParent (s : Sched) : Option TaskPtr → Sched
  | none => s
  | some p =>
    if (s.task p).state = .waiting then
      let s := s.modify p fun task =>
        if task.tier = .user then
          { task with state := .ready, mlfqContTicks := 0, mlfqLevel := 0 }
        else { task with state := .ready }
      s.enqueueTask p
    else s

/-- Children of a task that ends lose their parent. -/
def orphanChildren (s : Sched) (t : TaskPtr) : Sched :=
  { s with task := fun c =>
      match c with
      | .idle => s.task .idle
      | .slot i =>
        if (s.task (.slot i)).inUse ∧ (s.task (.slot i)).parent = some t then
          { s.task (.slot i) with parent := none }
        else s.task (.slot i) }

/-- `task_exit` drops an inherited tier. -/
def clearInherited (s : Sched) (t : TaskPtr) : Sched :=
  s.modify t fun task => { task with inherited := false, savedTier := .user }

/-- `free_task_address_space` as far as the scheduler goes: the kernel's directory is loaded. -/
def leaveAddressSpace (s : Sched) (t : TaskPtr) : Sched :=
  { s.modify t (fun task => { task with pagesCharged := 0 }) with cr3 := s.pageDirectory }

/-- `task_exit`, up to its call of `schedule`. -/
def exitCurrent (s : Sched) (code : ℤ) : Option Sched := do
  let t := s.currentTask
  let s ← s.dequeueTask t
  let s := s.modify t fun task => { task with state := .exited, exitCode := code }
  let s := s.wakeParent (s.task t).parent
  return ((s.orphanChildren t).clearInherited t).leaveAddressSpace t

/-- `yield`, up to its call of `schedule`. -/
def yieldCurrent (s : Sched) : Option Sched := do
  let t := s.currentTask
  let s ← (if (s.task t).tier = .user then
      let s := s.modify t fun task => { task with mlfqContTicks := 0 }
      if 0 < (s.task t).mlfqLevel then s.taskSetMlfqLevel t 0 else some s
    else some s)
  return s.setState t .ready

/-- The blocking round of `sys_wait`, up to its call of `schedule`. -/
def waitCurrent (s : Sched) : Option Sched :=
  (s.setState s.currentTask .waiting).dequeueTask s.currentTask

/-! ## The timer interrupt -/

/-- Quota accounting of `pit_handler`. -/
def chargeQuota (s : Sched) : Sched :=
  s.modify s.currentTask fun task =>
    if 0 < task.cpuQuota then
      let limit := max (quotaPeriodTicks * task.cpuQuota % 2 ^ 32 / 100) 1
      let used := (task.quotaUsedTicks + 1) % 2 ^ 32
      { task with quotaUsedTicks := used, quotaDone := decide (limit ≤ used) || task.quotaDone }
    else task

/-- Demotion of `pit_handler`. -/
def demote (s : Sched) : Option Sched := do
  let t := s.currentTask
  if (s.task t).tier = .user ∧ ¬ (s.task t).quotaDone then
    let s := s.modify t fun task => { task with mlfqContTicks := task.mlfqContTicks + 1 }
    if mlfqDemoteTicks ≤ (s.task t).mlfqContTicks ∧ (s.task t).mlfqLevel < 2 then do
      let s ← s.taskSetMlfqLevel t ((s.task t).mlfqLevel + 1)
      return s.modify t fun task => { task with mlfqContTicks := 0 }
    else return s
  else return s

/-- The periodic work of `pit_handler`. -/
def periodic (s : Sched) : Option Sched := do
  let s := if s.tickCount % 50 = 0 then s.watchdogTick else s
  let s ← (if s.tickCount % mlfqAgingTicks = 0 then s.taskMlfqAging else some s)
  return if s.tickCount % quotaPeriodTicks = 0 then s.taskQuotaPeriodReset else s

/-- `pit_handler`, up to its call of `schedule`, or `task_exit`'s when the task is to die. -/
def pitHandler (s : Sched) : Option Sched :=
  let s := { s with tickCount := (s.tickCount + 1) % 2 ^ 32 }
  if (s.task s.currentTask).killPending then
    (s.modify s.currentTask fun task => { task with killPending := false }).exitCurrent (-9)
  else s.chargeQuota.demote >>= periodic

/-! ## Start -/

/-- `task_init`: an empty table, empty queues, the idle task running. -/
def taskInit (pageDirectory : ℕ) : Sched where
  task
    | .idle => { Task.zero with
        timeslice := taskTimeslice, state := .ready, cr3 := pageDirectory, caps := 0xFFFFFFFF }
    | .slot _ => Task.zero
  currentTask := .idle
  rqHead _ := none
  rqTail _ := none
  pidCounter := 1
  pageDirectory := pageDirectory
  cr3 := pageDirectory
  tickCount := 0
  wdTable := []
  wdTick := 0

/-! ## The system -/

/-- `create_task_slot`, any values for the fields a creator sets, then `enqueue_task`. Nothing
happens when the table is full. -/
def createAndEnqueue (s : Sched) (fields : Task) : Sched :=
  match s.createTaskSlot with
  | (none, s) => s
  | (some i, s) =>
    (s.modify (.slot i) fun slot => { fields with
      pid := slot.pid, inUse := slot.inUse, next := slot.next, curQueue := slot.curQueue,
      state := .ready }).enqueueTask (.slot i)

end Sched

/-- What happens to the scheduler. -/
inductive SchedEvent where
  /-- a task is created (by `sys_fork` or `spawn_user_process`) and enqueued -/
  | create (fields : Task)
  /-- the timer interrupt -/
  | tick
  | yield
  /-- `sys_wait` blocks -/
  | wait
  /-- `task_exit` -/
  | exit (code : ℤ)
  /-- `task_set_tier` -/
  | setTier (i : Fin maxTasks) (tier : Tier)
  /-- `task_set_mlfq_level` -/
  | setLevel (i : Fin maxTasks) (level : ℤ)
  | schedule
  /-- a task is marked to die (`sys_kill`) -/
  | kill (i : Fin maxTasks)
  /-- `watchdog_register` -/
  | register (path : CStr) (tier : Tier) (i : Option (Fin maxTasks))
  /-- the slot of a task that has ended is freed (`sys_wait`, `task_reap_orphans`) -/
  | reap (i : Fin maxTasks)

namespace SchedEvent

/-- What an event does up to its call of `schedule`, or all of it when there is none. -/
def before (s : Sched) : SchedEvent → Option Sched
  | create fields => some (s.createAndEnqueue fields)
  | tick => s.pitHandler
  | yield => s.yieldCurrent
  | wait => s.waitCurrent
  | exit code => s.exitCurrent code
  | setTier i tier => s.taskSetTier (.slot i) tier
  | setLevel i level => s.taskSetMlfqLevel (.slot i) level
  | schedule => some s
  | kill i => some (s.modify (.slot i) fun task => { task with killPending := true })
  | register path tier i => some (s.watchdogRegister path tier (i.map .slot)).2
  | reap i => some (s.freeTaskSlot (.slot i))

/-- The events that end in `schedule`. -/
def schedules : SchedEvent → Bool
  | tick | yield | wait | exit _ | schedule => true
  | _ => false

end SchedEvent

/-- The scheduler from `task_init` on. The idle task neither waits nor ends, and only slots of
ended tasks are freed. -/
def schedSystem : System Sched SchedEvent where
  init s := ∃ pageDirectory, s = Sched.taskInit pageDirectory
  allowed s
    | .wait => s.currentTask ≠ .idle
    | .exit _ => s.currentTask ≠ .idle
    | .reap i => (s.task (.slot i)).state = .exited
    | _ => True
  step s e := do
    let s ← e.before s
    if e.schedules then s.schedule else return s

end PokuOS
