import Mathlib.Algebra.GroupWithZero.Nat
import Mathlib.Data.Fintype.Basic
import Mathlib.Data.List.FinRange
import Mathlib.Logic.Function.Basic
import PokuOS.Chain

/-!
# Tasks and run queues

The process table of `kernel/task.c` and the five run queues threaded through it.

A `task_t *` is a `TaskPtr`: the idle task, or a slot of the table. The queues are what they
are in the source, a head and a tail pointer each, with the links in the tasks' `next`
fields; nothing in the types prevents a broken list. Loops over a queue are `walk`s with
enough fuel for every task there is, so `none` is a loop that never ends, or a `NULL`
dereference.
-/

namespace PokuOS

open Finset Function

/-! ## The process table -/

/-- `tier_t`. -/
inductive Tier where
  /-- `TIER_KERNEL` -/
  | kernel
  /-- `TIER_SYSTEM` -/
  | system
  /-- `TIER_USER` -/
  | user
  /-- `TIER_CRITICAL` -/
  | critical
  deriving DecidableEq, Repr

/-- `task_t.state`. -/
inductive TaskState where
  /-- `TASK_RUNNING` -/
  | running
  /-- `TASK_READY` -/
  | ready
  /-- `TASK_WAITING` -/
  | waiting
  /-- `TASK_EXITED` -/
  | exited
  deriving DecidableEq, Repr

/-- `MAX_TASKS`. -/
abbrev maxTasks : ℕ := 16

instance : NeZero maxTasks := ⟨by decide⟩

/-- `NR_QUEUES`. -/
abbrev nrQueues : ℕ := 5

/-- A `task_t *` that is not `NULL`. -/
inductive TaskPtr where
  /-- `&idle_task` -/
  | idle
  /-- `&tasks[i]` -/
  | slot (i : Fin maxTasks)
  deriving DecidableEq, Repr

instance : Fintype TaskPtr where
  elems := insert .idle (univ.map ⟨.slot, fun _ _ => TaskPtr.slot.inj⟩)
  complete
    | .idle => mem_insert_self ..
    | .slot i => mem_insert_of_mem (mem_map.mpr ⟨i, mem_univ i, rfl⟩)

/-- A C string: its bytes, without the terminating NUL. -/
abbrev CStr : Type := List UInt8

/-- `task_t`, without saved registers and stack. -/
structure Task where
  pid : ℕ
  timeslice : ℤ
  state : TaskState
  next : Option TaskPtr
  /-- `cur_queue`; `none` is `-1` -/
  curQueue : Option (Fin nrQueues)
  cr3 : ℕ
  tier : Tier
  userEntry : ℕ
  userStack : ℕ
  exitCode : ℤ
  parent : Option TaskPtr
  inUse : Bool
  mlfqLevel : ℤ
  mlfqContTicks : ℕ
  caps : BitVec 32
  memLimit : ℕ
  cpuQuota : ℕ
  rootPath : CStr
  tierOverride : ℤ
  pagesCharged : ℕ
  quotaUsedTicks : ℕ
  quotaDone : Bool
  killPending : Bool
  /-- `flags & TASK_INHERITED` -/
  inherited : Bool
  savedTier : Tier
  wdManaged : Bool
  /-- `map` is set -/
  map : Bool

/-- A task after `memset(t, 0, sizeof(task_t))`. -/
def Task.zero : Task where
  pid := 0
  timeslice := 0
  state := .running
  next := none
  curQueue := some 0
  cr3 := 0
  tier := .kernel
  userEntry := 0
  userStack := 0
  exitCode := 0
  parent := none
  inUse := false
  mlfqLevel := 0
  mlfqContTicks := 0
  caps := 0
  memLimit := 0
  cpuQuota := 0
  rootPath := []
  tierOverride := 0
  pagesCharged := 0
  quotaUsedTicks := 0
  quotaDone := false
  killPending := false
  inherited := false
  savedTier := .kernel
  wdManaged := false
  map := false

/-- `struct wd_entry`. -/
structure WdEntry where
  path : CStr
  tier : Tier
  task : Option TaskPtr
  restarts : ℕ
  unstable : ℕ
  delayTicks : ℕ
  spawnDue : Bool
  active : Bool
  spawnTick : ℕ

/-- The state of `task.c`, `sched.c` and `watchdog.c`, and the `cr3` register. -/
structure Sched where
  /-- `tasks` and `idle_task` -/
  task : TaskPtr → Task
  /-- `current_task`, which is set from `task_init` on -/
  currentTask : TaskPtr
  rqHead : Fin nrQueues → Option TaskPtr
  rqTail : Fin nrQueues → Option TaskPtr
  pidCounter : ℕ
  /-- the address of `page_directory`, the kernel's own -/
  pageDirectory : ℕ
  /-- the loaded page directory -/
  cr3 : ℕ
  /-- `tick_count` of `pit_handler` -/
  tickCount : ℕ
  /-- `wd_table`, up to `wd_count` -/
  wdTable : List WdEntry
  wdTick : ℕ

/-! ## Queue indices -/

/-- `tier_to_queue_idx`. -/
def tierToQueueIdx : Tier → Fin nrQueues
  | .kernel => 0
  | .system => 1
  | .critical => 1
  | .user => 2

/-- A level forced into `0 … 2`, as `task_qidx` and `clamp_level` do. -/
def clampLevel (level : ℤ) : Fin 3 :=
  if level < 0 then 0 else if 2 < level then 2 else Fin.ofNat 3 level.toNat

/-- The queue of a task with this tier and level. -/
def queueIdx (tier : Tier) (level : ℤ) : Fin nrQueues :=
  match tier with
  | .user => (clampLevel level).natAdd 2
  | tier => tierToQueueIdx tier

/-- `task_qidx`. -/
def taskQidx (t : Task) : Fin nrQueues := queueIdx t.tier t.mlfqLevel

namespace Sched

/-! ## Field updates -/

/-- Change a task in place. -/
def modify (s : Sched) (t : TaskPtr) (f : Task → Task) : Sched :=
  { s with task := update s.task t (f (s.task t)) }

theorem task_modify (s : Sched) (t p : TaskPtr) (f : Task → Task) :
    (s.modify t f).task p = if p = t then f (s.task t) else s.task p :=
  update_apply ..

/-- A field that the change leaves alone. -/
theorem read_modify {β : Type*} (g : Task → β) {f : Task → Task} (hf : ∀ a, g (f a) = g a)
    (s : Sched) (t p : TaskPtr) : g ((s.modify t f).task p) = g (s.task p) := by
  rw [task_modify]
  split
  · rename_i hp
    rw [hf, hp]
  · rfl

theorem modify_modify (s : Sched) (t : TaskPtr) (f g : Task → Task) :
    (s.modify t f).modify t g = s.modify t fun task => g (f task) := by
  unfold modify
  simp only [update_self, update_idem]

/-- `t->next = next`. -/
def setNext (s : Sched) (t : TaskPtr) (next : Option TaskPtr) : Sched :=
  s.modify t fun task => { task with next := next }

/-- `t->cur_queue = q`. -/
def setCurQueue (s : Sched) (t : TaskPtr) (q : Option (Fin nrQueues)) : Sched :=
  s.modify t fun task => { task with curQueue := q }

/-- `t->state = state`. -/
def setState (s : Sched) (t : TaskPtr) (state : TaskState) : Sched :=
  s.modify t fun task => { task with state := state }

/-- `rq_head[q] = head`. -/
def setHead (s : Sched) (q : Fin nrQueues) (head : Option TaskPtr) : Sched :=
  { s with rqHead := update s.rqHead q head }

/-- `rq_tail[q] = tail`. -/
def setTail (s : Sched) (q : Fin nrQueues) (tail : Option TaskPtr) : Sched :=
  { s with rqTail := update s.rqTail q tail }

/-- The `next` field as a successor function. -/
def nextOf (s : Sched) (t : TaskPtr) : Option TaskPtr := (s.task t).next

/-- One more than there are tasks: a walk of this many steps has met a task twice. -/
def queueFuel : ℕ := maxTasks + 2

/-! ## Queue operations -/

/-- `enqueue_task`. -/
def enqueueTask (s : Sched) (t : TaskPtr) : Sched :=
  let q := taskQidx (s.task t)
  let s := (s.setCurQueue t (some q)).setNext t none
  match s.rqTail q with
  | some tail => (s.setNext tail (some t)).setTail q (some t)
  | none => (s.setHead q (some t)).setTail q (some t)

/-- `dequeue_task`. -/
def dequeueTask (s : Sched) (t : TaskPtr) : Option Sched :=
  match (s.task t).curQueue with
  | none => some s
  | some q =>
    if s.rqHead q = some t then
      let next := s.nextOf t
      let s := s.setHead q next
      let s := if next.isNone then s.setTail q none else s
      some (s.setNext t none)
    else do
      let (_, prev) ← walk s.nextOf (fun p => s.nextOf p == some t) queueFuel none (s.rqHead q)
      match prev with
      | none => return s
      | some prev =>
        let s' := s.setNext prev (s.nextOf t)
        let s' := if s.rqTail q = some t then s'.setTail q (some prev) else s'
        return s'.setNext t none

/-- The head of the queue goes to its end. -/
def moveToTail (s : Sched) (q : Fin nrQueues) (t : TaskPtr) : Option Sched := do
  let tail ← s.rqTail q
  let s := s.setHead q (s.nextOf t)
  let s := s.setNext tail (some t)
  let s := s.setTail q (some t)
  return s.setNext t none

/-- The `while (t->quota_done)` loop: exhausted tasks go to the end of the queue. -/
def skipDone : ℕ → Sched → Fin nrQueues → TaskPtr → Option (TaskPtr × Sched)
  | 0, _, _, _ => none
  | fuel + 1, s, q, t =>
    if (s.task t).quotaDone then do
      let s ← s.moveToTail q t
      let t ← s.rqHead q
      skipDone fuel s q t
    else some (t, s)

/-- One round of the loop of `pick_next_task`: the task picked from queue `q`, if any. -/
def pickQueue (s : Sched) (q : Fin nrQueues) : Option (Option TaskPtr × Sched) :=
  match s.rqHead q with
  | none => some (none, s)
  | some t => do
    -- the probe for a task with quota left; it stops at once when `t` is one
    let (_, probe) ← walk s.nextOf (fun p => !(s.task p).quotaDone) queueFuel none (some t)
    match probe with
    | none => return (none, s)
    | some _ => do
      let (t, s) ← skipDone queueFuel s q t
      match s.nextOf t with
      | some _ => do
        let s ← s.moveToTail q t
        return (some t, s)
      | none => return (some t, (s.setHead q none).setTail q none)

/-- The loop of `pick_next_task` and `pick_next_lower` over the given queues. -/
def pickFrom (s : Sched) : List (Fin nrQueues) → Option (Option TaskPtr × Sched)
  | [] => some (none, s)
  | q :: qs => do
    let (picked, s) ← s.pickQueue q
    match picked with
    | some t => return (some t, s)
    | none => s.pickFrom qs

/-- `pick_next_task`. -/
def pickNextTask (s : Sched) : Option (Option TaskPtr × Sched) := s.pickFrom (List.finRange 5)

/-- `pick_next_lower`. -/
def pickNextLower (s : Sched) (minQ : ℕ) : Option (Option TaskPtr × Sched) :=
  s.pickFrom ((List.finRange 5).filter fun q => minQ ≤ q.val)

/-- The loop of `peek_next_task` over the given queues. -/
def peekFrom (s : Sched) : List (Fin nrQueues) → Option (Option TaskPtr)
  | [] => some none
  | q :: qs => do
    let (_, found) ← walk s.nextOf (fun p => !(s.task p).quotaDone) queueFuel none (s.rqHead q)
    match found with
    | some t => return some t
    | none => s.peekFrom qs

/-- `peek_next_task`. -/
def peekNextTask (s : Sched) : Option (Option TaskPtr) := s.peekFrom (List.finRange 5)

end Sched

end PokuOS
