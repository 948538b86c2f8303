import PokuOS.Frame

/-!
# Mutexes

`mutex_lock`, `mutex_trylock` and `mutex_unlock` of `kernel/locks.c` over the scheduler, for any
family of mutexes.

Each stretch between `cli` and `sti` is one event. A task that finds the mutex taken puts itself
at the head of the mutex's wait queue, which is linked through the same `next` fields as the run
queues, enables interrupts and only then calls `schedule`; the timer may call `schedule` in
between. Where a task is in this loop is part of the state (`LockPc`), and so is the tier it was
created with; neither is in the source.
-/

namespace PokuOS

open Function

/-- `struct mutex`. -/
structure Mutex where
  locked : Bool
  holder : Option TaskPtr
  waitq : Option TaskPtr
  /-- `flags & LOCK_FLAG_INHERIT` -/
  inherit : Bool

/-- Where a task is in `mutex_lock`. -/
inductive LockPc (ι : Type) where
  /-- not in it -/
  | outside
  /-- behind the `sti` of the loop: whether an `unlock` has taken it off the wait queue, and
  whether it has made its own call of `schedule` -/
  | inLock (m : ι) (woken called : Bool)
  deriving DecidableEq

/-- An `unlock` has woken the task. -/
def LockPc.wake {ι : Type} : LockPc ι → LockPc ι
  | .outside => .outside
  | .inLock m _ called => .inLock m true called

/-- The scheduler, the mutexes, and where each task is. -/
structure LockState (ι : Type) where
  /-- tasks and run queues -/
  sched : Sched
  /-- the mutexes -/
  mutex : ι → Mutex
  /-- where each task is in `mutex_lock` -/
  pc : TaskPtr → LockPc ι
  /-- the tier each task was created with -/
  startTier : TaskPtr → Tier

/-- The task is blocked in `mutex_lock(m)`. -/
abbrev LockState.BlockedIn {ι : Type} (st : LockState ι) (m : ι) (t : TaskPtr) : Prop :=
  ∃ called, st.pc t = .inLock m false called

/-- The number of a tier. -/
def Tier.number : Tier → ℕ
  | .kernel => 0
  | .system => 1
  | .user => 2
  | .critical => 3

namespace Sched

/-- The holder is raised to the tier of the task that waits; its own is saved the first time. -/
def boost (s : Sched) (holder : TaskPtr) (tier : Tier) : Option Sched := do
  let s := s.modify holder fun task =>
    if task.inherited then task else { task with savedTier := task.tier }
  let s ← s.taskSetTier holder tier
  return s.modify holder fun task => { task with inherited := true }

/-- The holder gets its own tier back. -/
def restore (s : Sched) (holder : TaskPtr) : Option Sched := do
  let s := s.modify holder fun task => { task with inherited := false }
  let s ← s.taskSetTier holder (s.task holder).savedTier
  return s.modify holder fun task => { task with savedTier := .user }

/-- The current task waits, in front of the queue `waitq`. -/
def block (s : Sched) (waitq : Option TaskPtr) : Option Sched := do
  let me := s.currentTask
  let s ← s.dequeueTask me
  return (s.setState me .waiting).setNext me waitq

/-- A task is taken off a wait queue. -/
def wake (s : Sched) (w : TaskPtr) : Sched :=
  ((s.setNext w none).setState w .ready).enqueueTask w

theorem block_body (s : Sched) (waitq : Option TaskPtr) : Post (s.block waitq) fun s' =>
    s'.body = (s.setState s.currentTask .waiting).body := by
  refine (dequeueTask_body s _).bind fun s1 h1 => .some ((body_setNext _ _ _).trans ?_)
  exact body_modify_congr h1 _ fun _ => rfl

theorem wake_body (s : Sched) (w : TaskPtr) : (s.wake w).body = (s.setState w .ready).body :=
  (enqueueTask_body _ _).trans (body_modify_congr (body_setNext s w none) _ fun _ => rfl)

end Sched

namespace LockState

variable {ι : Type} [DecidableEq ι]

/-- The current task takes the mutex. -/
def take (st : LockState ι) (m : ι) : LockState ι :=
  let me := st.sched.currentTask
  { st with
    mutex := update st.mutex m { st.mutex m with locked := true, holder := some me }
    pc := update st.pc me .outside }

/-- **Who waits** makes no difference for the rest of a mutex. -/
theorem update_waitq (f : ι → Mutex) (m m' : ι) (waitq : Option TaskPtr) :
    let mutex := update f m { f m with waitq := waitq } m'
    mutex.locked = (f m').locked ∧ mutex.holder = (f m').holder ∧
      mutex.inherit = (f m').inherit := by
  by_cases heq : m' = m
  · subst heq
    simp
  · simp [heq]

theorem mutex_take (st : LockState ι) (m m' : ι) : (st.take m).mutex m' =
    if m' = m then { st.mutex m with locked := true, holder := some st.sched.currentTask }
    else st.mutex m' :=
  update_apply ..

/-- Inheritance in `mutex_lock`. -/
def inheritTier (st : LockState ι) (m : ι) : Option Sched :=
  let me := st.sched.currentTask
  match (st.mutex m).holder with
  | none => some st.sched
  | some holder =>
    if (st.mutex m).inherit ∧
        (st.sched.task me).tier.number < (st.sched.task holder).tier.number then
      st.sched.boost holder (st.sched.task me).tier
    else some st.sched

/-- One round of the loop of `mutex_lock`, up to its `sti`. -/
def mutexLock (st : LockState ι) (m : ι) : Option (LockState ι) :=
  if (st.mutex m).locked then do
    let s ← st.inheritTier m
    let s ← s.block (st.mutex m).waitq
    let me := st.sched.currentTask
    return { st with
      sched := s
      mutex := update st.mutex m { st.mutex m with waitq := some me }
      pc := update st.pc me (.inLock m false false) }
  else some (st.take m)

/-- `mutex_trylock`, with its result. -/
def mutexTrylock (st : LockState ι) (m : ι) : Bool × LockState ι :=
  if (st.mutex m).locked then (false, st) else (true, st.take m)

/-- The end of inheritance in `mutex_unlock`. -/
def restoreTier (st : LockState ι) (m : ι) : Option Sched :=
  match (st.mutex m).holder with
  | none => some st.sched
  | some holder =>
    if (st.sched.task holder).inherited then st.sched.restore holder else some st.sched

/-- `mutex_unlock`. -/
def mutexUnlock (st : LockState ι) (m : ι) : Option (LockState ι) := do
  let s ← st.restoreTier m
  match (st.mutex m).waitq with
  | none =>
    return { st with
      sched := s
      mutex := update st.mutex m { st.mutex m with locked := false, holder := none } }
  | some w =>
    return { st with
      sched := s.wake w
      mutex := update st.mutex m
        { st.mutex m with locked := false, holder := none, waitq := s.nextOf w }
      pc := update st.pc w (st.pc w).wake }

/-- The call of `schedule` in the loop of `mutex_lock`. Interrupts are on in `schedule` itself; a
tick that comes there is not modelled. -/
def callSchedule (st : LockState ι) : Option (LockState ι) :=
  match st.pc st.sched.currentTask with
  | .outside => none
  | .inLock m woken _ => do
    let s ← st.sched.schedule
    return { st with
      sched := s
      pc := update st.pc st.sched.currentTask (.inLock m woken true) }

/-- The task comes back from `schedule` and goes round the loop again. -/
def retest (st : LockState ι) : Option (LockState ι) :=
  match st.pc st.sched.currentTask with
  | .outside => none
  | .inLock m _ _ => st.mutexLock m

/-- A task is created. -/
def create (st : LockState ι) (fields : Task) : LockState ι :=
  { st with
    sched := st.sched.createAndEnqueue fields
    startTier := match st.sched.createTaskSlot with
      | (none, _) => st.startTier
      | (some i, _) => update st.startTier (.slot i) fields.tier }

end LockState

/-- What happens to tasks that use mutexes. -/
inductive LockEvent (ι : Type) where
  /-- `mutex_lock` is called -/
  | lock (m : ι)
  /-- `mutex_trylock` -/
  | trylock (m : ι)
  /-- `mutex_unlock` -/
  | unlock (m : ι)
  /-- `mutex_lock` calls `schedule` -/
  | callSchedule
  /-- `mutex_lock` tests the mutex again -/
  | retest
  /-- the timer interrupt -/
  | tick
  | yield
  /-- `schedule` is called outside `mutex_lock` -/
  | schedule
  /-- a task is created -/
  | create (fields : Task)

namespace LockEvent

variable {ι : Type} [DecidableEq ι]

/-- What an event does. -/
def apply (st : LockState ι) : LockEvent ι → Option (LockState ι)
  | lock m => st.mutexLock m
  | trylock m => some (st.mutexTrylock m).2
  | unlock m => st.mutexUnlock m
  | callSchedule => st.callSchedule
  | retest => st.retest
  | tick => do
    let s ← st.sched.pitHandler
    let s ← s.schedule
    return { st with sched := s }
  | yield => do
    let s ← st.sched.yieldCurrent
    let s ← s.schedule
    return { st with sched := s }
  | schedule => do
    let s ← st.sched.schedule
    return { st with sched := s }
  | create fields => some (st.create fields)

/-- The current task is one of the table and not in `mutex_lock`. A slot that is not in use has
no code to run. -/
def Free (st : LockState ι) : Prop :=
  st.sched.currentTask ≠ .idle ∧ (st.sched.task st.sched.currentTask).inUse = true ∧
    st.pc st.sched.currentTask = .outside

/-- The current task is in `mutex_lock`, and has called `schedule` or not. -/
def Inside (st : LockState ι) (called : Bool) : Prop :=
  match st.pc st.sched.currentTask with
  | .outside => False
  | .inLock _ _ c => c = called

/-- What the current task can do next. The timer interrupts it anywhere outside `cli … sti`. A
creator sets neither `kill_pending` nor `TASK_INHERITED`. -/
def Allowed (st : LockState ι) : LockEvent ι → Prop
  | lock _ | trylock _ | unlock _ | yield => Free st
  | callSchedule => Inside st false
  | retest => Inside st true
  | schedule => st.pc st.sched.currentTask = .outside
  | tick => True
  | create fields => fields.killPending = false ∧ fields.inherited = false

instance (st : LockState ι) : Decidable (Free st) := inferInstanceAs (Decidable (_ ∧ _))

instance (st : LockState ι) (called : Bool) : Decidable (Inside st called) :=
  match h : st.pc st.sched.currentTask with
  | .outside => isFalse (by unfold Inside; rw [h]; exact id)
  | .inLock _ _ c => decidable_of_iff (c = called) (by unfold Inside; rw [h])

instance (st : LockState ι) : (e : LockEvent ι) → Decidable (e.Allowed st)
  | lock _ | trylock _ | unlock _ | yield => inferInstanceAs (Decidable (Free st))
  | callSchedule => inferInstanceAs (Decidable (Inside st false))
  | retest => inferInstanceAs (Decidable (Inside st true))
  | schedule => inferInstanceAs (Decidable (_ = _))
  | tick => .isTrue trivial
  | create _ => inferInstanceAs (Decidable (_ ∧ _))

end LockEvent

/-- Tasks that use mutexes, from `task_init` and `mutex_init` on. -/
def lockSystem (ι : Type) [DecidableEq ι] : System (LockState ι) (LockEvent ι) where
  init st := (∃ pageDirectory, st.sched = Sched.taskInit pageDirectory) ∧
    (∀ m, (st.mutex m).locked = false ∧ (st.mutex m).holder = none ∧
      (st.mutex m).waitq = none) ∧
    (∀ t, st.pc t = .outside) ∧ ∀ t, st.startTier t = (st.sched.task t).tier
  allowed := LockEvent.Allowed
  step := LockEvent.apply

end PokuOS
