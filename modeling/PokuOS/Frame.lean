import PokuOS.Sched

/-!
# What scheduling does to a state and to a task

Queue operations write links and the ends of queues; everything else about a state is its `body`,
which they leave alone. Any preorder of states that allows this, and the single writes of changes
of level, holds between the state before and after (`Relinking`, `Releveling`, `Ticking`), in
whatever state the queues are.

`schedule` also writes a task's state and its time slice, and the functions that call it a few
fields more. Any relation between tasks that allows these writes holds between each task before
and after: `Via`. A result about tasks picks the relation that it is about. `Stays` is the
preorder for what is not a task: nothing is switched.

What `task_exit` and the creation of a task do to the body is said once
(`exitCurrent_body`, `createAndEnqueue_cases`), and so is to whom `schedule` can return
(`Outcome`).
-/

namespace PokuOS

open Sched

/-- A task without its queue fields. -/
def Task.body (t : Task) : Task := { t with next := none, curQueue := none }

variable {f : Task → Task}

namespace Sched

/-! ## The body of a state -/

/-- A state without its queues. -/
def body (s : Sched) : Sched :=
  { s with task := fun t => (s.task t).body, rqHead := fun _ => none, rqTail := fun _ => none }

variable {s s' : Sched}

theorem task_body_eq (h : s'.body = s.body) (t : TaskPtr) :
    (s'.task t).body = (s.task t).body :=
  congrFun (congrArg task h) t

/-- What can be read off a task's body is the same in states with the same body. -/
theorem task_read {β : Type*} (f : Task → β) (hf : ∀ task, f task.body = f task)
    (h : s'.body = s.body) (t : TaskPtr) : f (s'.task t) = f (s.task t) := by
  rw [← hf, task_body_eq h, hf]

section

variable (h : s'.body = s.body)
include h

theorem quotaDone_eq (t : TaskPtr) : (s'.task t).quotaDone = (s.task t).quotaDone :=
  task_read Task.quotaDone (fun _ => rfl) h t

theorem state_eq (t : TaskPtr) : (s'.task t).state = (s.task t).state :=
  task_read Task.state (fun _ => rfl) h t

theorem inUse_eq (t : TaskPtr) : (s'.task t).inUse = (s.task t).inUse :=
  task_read Task.inUse (fun _ => rfl) h t

theorem taskQidx_eq (t : TaskPtr) : taskQidx (s'.task t) = taskQidx (s.task t) :=
  task_read taskQidx (fun _ => rfl) h t

theorem currentTask_eq : s'.currentTask = s.currentTask := by
  have := congrArg currentTask h
  exact this

end

theorem body_ext (htask : ∀ t, (s'.task t).body = (s.task t).body)
    (hcur : s'.currentTask = s.currentTask) (hpid : s'.pidCounter = s.pidCounter)
    (hpd : s'.pageDirectory = s.pageDirectory) (hcr3 : s'.cr3 = s.cr3)
    (htick : s'.tickCount = s.tickCount) (htable : s'.wdTable = s.wdTable)
    (hwd : s'.wdTick = s.wdTick) : s'.body = s.body := by
  have hall : (fun t => (s'.task t).body) = fun t => (s.task t).body := funext htask
  unfold body
  rw [hall, hcur, hpid, hpd, hcr3, htick, htable, hwd]

/-- Both states are written to in the same way. -/
theorem body_modify_congr (h : s'.body = s.body) (t : TaskPtr)
    (hf : ∀ task, (f task.body).body = (f task).body) :
    (s'.modify t f).body = (s.modify t f).body := by
  refine body_ext (fun p => ?_) (congrArg currentTask h :) (congrArg pidCounter h :)
    (congrArg pageDirectory h :) (congrArg cr3 h :) (congrArg tickCount h :)
    (congrArg wdTable h :) (congrArg wdTick h :)
  rw [task_modify, task_modify]
  split
  · rw [← hf, task_body_eq h, hf]
  · exact task_body_eq h p

/-- Rewriting queue fields of a task leaves the body alone. -/
theorem body_modify (s : Sched) (t : TaskPtr) (hf : ∀ task, (f task).body = task.body) :
    (s.modify t f).body = s.body := by
  exact body_ext (read_modify Task.body hf s t) rfl rfl rfl rfl rfl rfl rfl

section Updates

variable (s) (t : TaskPtr) (q : Fin nrQueues) (n : Option TaskPtr)

@[simp] theorem body_setNext : (s.setNext t n).body = s.body := s.body_modify t fun _ => rfl

@[simp] theorem body_setCurQueue (c : Option (Fin nrQueues)) :
    (s.setCurQueue t c).body = s.body := s.body_modify t fun _ => rfl

@[simp] theorem body_setHead : (s.setHead q n).body = s.body := rfl

@[simp] theorem body_setTail : (s.setTail q n).body = s.body := rfl

end Updates

/-! ## Queue operations -/

theorem enqueueTask_body (s : Sched) (t : TaskPtr) : (s.enqueueTask t).body = s.body := by
  unfold enqueueTask
  simp only
  split
  · rw [body_setTail, body_setNext, body_setNext, body_setCurQueue]
  · rw [body_setTail, body_setHead, body_setNext, body_setCurQueue]

theorem dequeueTask_body (s : Sched) (t : TaskPtr) :
    Post (s.dequeueTask t) fun s' => s'.body = s.body := by
  unfold dequeueTask
  split
  · exact .some rfl
  · split
    · refine .some ?_
      rw [body_setNext]
      split <;> simp
    · refine Post.forall_bind ?_
      rintro ⟨_, prev⟩
      cases prev with
      | none => exact .some rfl
      | some prev =>
        refine .some ?_
        rw [body_setNext]
        split <;> simp

theorem moveToTail_body (s : Sched) (q : Fin nrQueues) (t : TaskPtr) :
    Post (s.moveToTail q t) fun s' => s'.body = s.body :=
  Post.forall_bind fun tail => .some (by simp)

/-- A pick writes links only, and finds a task that has quota left. -/
structure Pick (s : Sched) (cand : Option TaskPtr) (s' : Sched) : Prop where
  body : s'.body = s.body
  /-- quota -/
  left : ∀ t, cand = some t → (s.task t).quotaDone = false

theorem pick_none (h : s'.body = s.body) : Pick s none s' := ⟨h, nofun⟩

theorem pick_some {t : TaskPtr} (h : s'.body = s.body) (hleft : (s'.task t).quotaDone = false) :
    Pick s (some t) s' := by
  refine ⟨h, fun t' ht' => ?_⟩
  cases ht'
  exact (quotaDone_eq h t).symm.trans hleft

theorem pick_skipDone (q : Fin nrQueues) (fuel : ℕ) : ∀ (s : Sched) (t : TaskPtr),
    Post (skipDone fuel s q t) fun r => Pick s (some r.1) r.2 := by
  induction fuel with
  | zero => exact fun _ _ => .none
  | succ fuel ih =>
    intro s t
    unfold skipDone
    split
    · refine (moveToTail_body s q t).bind fun s1 h1 => ?_
      refine Post.forall_bind fun t1 => (ih s1 t1).mono fun r h => ?_
      exact pick_some (h.body.trans h1) ((quotaDone_eq h.body _).trans (h.left _ rfl))
    · rename_i hdone
      exact .some (pick_some rfl (Bool.eq_false_iff.mpr hdone))

theorem pick_pickQueue (s : Sched) (q : Fin nrQueues) :
    Post (s.pickQueue q) fun r => Pick s r.1 r.2 := by
  unfold pickQueue
  split
  · exact .some (pick_none rfl)
  · refine Post.forall_bind ?_
    rintro ⟨_, probe⟩
    cases probe with
    | none => exact .some (pick_none rfl)
    | some _ =>
      refine (pick_skipDone q _ s _).bind ?_
      rintro ⟨t, s1⟩ h1
      simp only
      split
      · exact (moveToTail_body s1 q t).bind fun s2 h2 => .some ⟨h2.trans h1.body, h1.left⟩
      · exact .some ⟨h1.body, h1.left⟩

/-- **A pick returns a task with quota left**, whatever the queues look like. -/
theorem pick_pickFrom (qs : List (Fin nrQueues)) : ∀ s : Sched,
    Post (s.pickFrom qs) fun r => Pick s r.1 r.2 := by
  induction qs with
  | nil => exact fun _ => .some (pick_none rfl)
  | cons q qs ih =>
    intro s
    refine (pick_pickQueue s q).bind ?_
    rintro ⟨picked, s1⟩ h1
    cases picked with
    | none =>
      refine (ih s1).mono fun r h => ⟨h.body.trans h1.body, fun t ht => ?_⟩
      exact (quotaDone_eq h1.body t).symm.trans (h.left t ht)
    | some t => exact .some h1

theorem pick_pickOrIdle (s : Sched) : Post s.pickOrIdle fun r =>
    r.2.body = s.body ∧ (r.1 = .idle ∨ (s.task r.1).quotaDone = false) := by
  refine (pick_pickFrom _ s).bind ?_
  rintro ⟨cand, s1⟩ h1
  cases cand with
  | none => exact .some ⟨h1.body, .inl rfl⟩
  | some t => exact .some ⟨h1.body, .inr (h1.left t rfl)⟩

/-! ## Tiers and levels -/

/-- **`task_set_tier` sets the tier.** -/
theorem taskSetTier_body (s : Sched) (t : TaskPtr) (tier : Tier) : Post (s.taskSetTier t tier)
    fun s' => s'.body = (s.modify t fun task => { task with tier := tier }).body := by
  unfold taskSetTier
  simp only
  split
  · refine (dequeueTask_body s t).bind fun s1 h1 => .some ((enqueueTask_body _ _).trans ?_)
    exact body_modify_congr h1 t fun _ => rfl
  · exact .some rfl

/-- **`task_set_mlfq_level` sets the level.** -/
theorem taskSetMlfqLevel_body (s : Sched) (t : TaskPtr) (level : ℤ) :
    Post (s.taskSetMlfqLevel t level) fun s' => s'.body =
      (s.modify t fun task => { task with mlfqLevel := (clampLevel level).val }).body := by
  unfold taskSetMlfqLevel
  simp only
  split
  · rename_i heq
    have hself :
        s.modify t (fun task => { task with mlfqLevel := (clampLevel level).val }) = s := by
      simp only [modify, ← heq, Function.update_eq_self]
    rw [hself]
    exact .some rfl
  · split
    · exact (dequeueTask_body _ t).bind fun s1 h1 => .some ((enqueueTask_body _ _).trans h1)
    · exact .some rfl

/-! ## Preorders of states -/

/-- The preorder is about bodies. -/
structure Relinking (T : Sched → Sched → Prop) : Prop where
  /-- one write after the other -/
  trans : ∀ {s s' s''}, T s s' → T s' s'' → T s s''
  /-- links are written -/
  body : ∀ {s s'}, s'.body = s.body → T s s'

/-- It also allows the writes of changes of level. -/
structure Releveling (T : Sched → Sched → Prop) : Prop extends Relinking T where
  /-- `mlfq_level` -/
  level : ∀ s t l, T s (s.modify t fun task => { task with mlfqLevel := l })
  /-- `mlfq_cont_ticks` -/
  contTicks : ∀ s t (n : Task → ℕ),
    T s (s.modify t fun task => { task with mlfqContTicks := n task })
  /-- a task that yields -/
  ready : ∀ s t, T s (s.setState t .ready)

section Relinking

variable {T : Sched → Sched → Prop} (hT : Relinking T)
include hT

theorem Relinking.refl (s : Sched) : T s s := hT.body rfl

theorem frame_enqueueTask (s : Sched) (t : TaskPtr) : T s (s.enqueueTask t) :=
  hT.body (enqueueTask_body s t)

theorem frame_dequeueTask (s : Sched) (t : TaskPtr) : Post (s.dequeueTask t) (T s) :=
  (dequeueTask_body s t).mono fun _ => hT.body

/-- `task_set_tier`, if the preorder also allows the new tier. -/
theorem frame_taskSetTier {t : TaskPtr} {tier : Tier}
    (htier : ∀ s : Sched, T s (s.modify t fun task => { task with tier := tier })) (s : Sched) :
    Post (s.taskSetTier t tier) (T s) :=
  (taskSetTier_body s t tier).mono fun _ h => hT.trans (htier s) (hT.body h)

end Relinking

section Releveling

variable {T : Sched → Sched → Prop} (hT : Releveling T)
include hT

theorem frame_taskSetMlfqLevel (s : Sched) (t : TaskPtr) (level : ℤ) :
    Post (s.taskSetMlfqLevel t level) (T s) :=
  (taskSetMlfqLevel_body s t level).mono fun _ h => hT.trans (hT.level s t _) (hT.body h)

theorem frame_taskMlfqAging (s : Sched) : Post s.taskMlfqAging (T s) := by
  refine Post.foldlM (fun s1 i h1 => ?_) _ (hT.refl s)
  unfold ageTask
  simp only
  split
  · exact (frame_taskSetMlfqLevel hT _ _ _).mono fun _ h => hT.trans h1 h
  · exact .some h1

theorem frame_demote (s : Sched) : Post s.demote (T s) := by
  unfold demote
  simp only
  split
  · have hcount := hT.contTicks s s.currentTask fun task => task.mlfqContTicks + 1
    split
    · refine (frame_taskSetMlfqLevel hT _ _ _).bind fun s1 h1 => .some ?_
      exact hT.trans (hT.trans hcount h1) (hT.contTicks _ _ fun _ => 0)
    · exact .some hcount
  · exact .some (hT.refl s)

theorem frame_yieldCurrent (s : Sched) : Post s.yieldCurrent (T s) := by
  refine Post.bind (P := T s) ?_ fun s1 h1 => .some (hT.trans h1 (hT.ready _ _))
  split
  · have hcount := hT.contTicks s s.currentTask fun _ => 0
    simp only
    split
    · exact (frame_taskSetMlfqLevel hT _ _ _).mono fun _ h => hT.trans hcount h
    · exact .some hcount
  · exact .some (hT.refl s)

end Releveling

/-- The current task and the loaded directory are the same. -/
structure Stays (s s' : Sched) : Prop where
  currentTask : s'.currentTask = s.currentTask
  cr3 : s'.cr3 = s.cr3

theorem Stays.refl (s : Sched) : Stays s s := ⟨rfl, rfl⟩

theorem Stays.trans {s s' s'' : Sched} (h : Stays s s') (h' : Stays s' s'') : Stays s s'' :=
  ⟨h'.currentTask.trans h.currentTask, h'.cr3.trans h.cr3⟩

theorem releveling_stays : Releveling Stays where
  trans := .trans
  body h := ⟨currentTask_eq h, (congrArg cr3 h :)⟩
  level _ _ _ := ⟨rfl, rfl⟩
  contTicks _ _ _ := ⟨rfl, rfl⟩
  ready _ _ := ⟨rfl, rfl⟩

/-! ## `schedule` -/

/-- The running task has spent a tick of its slice. -/
def spent (s : Sched) : Sched :=
  s.modify s.currentTask fun task =>
    if 0 < task.timeslice then { task with timeslice := task.timeslice - 1 } else task

/-- **What `schedule` does**, but for the queues. -/
inductive Scheduled (s : Sched) : Sched → Prop where
  /-- the idle task goes on -/
  | idle {s' : Sched} : s.currentTask = .idle → s'.body = s.body → Scheduled s s'
  /-- a task is switched to; the one that ran is ready if it could go on -/
  | switch {s₁ : Sched} {cand : TaskPtr} :
    s₁.body = s.body ∨ s₁.body = (s.spent.setState s.currentTask .ready).body →
    cand = .idle ∨ (s.task cand).quotaDone = false → Scheduled s (s₁.switchToTask cand)
  /-- the running task gets a new slice -/
  | renew {s₁ : Sched} : s₁.body = (s.spent.setState s.currentTask .ready).body →
    (s.task s.currentTask).quotaDone = false → Scheduled s (s₁.setTaskTimeslice s.currentTask)
  /-- it goes on with the slice it has -/
  | goOn {s' : Sched} : s'.body = s.spent.body → (s.task s.currentTask).state ≠ .exited →
    0 < (s'.task s.currentTask).timeslice → Scheduled s s'

theorem quotaDone_spent (s : Sched) (t : TaskPtr) :
    ((s.spent.setState s.currentTask .ready).task t).quotaDone = (s.task t).quotaDone := by
  simp only [setState, spent, task_modify]
  split
  · rename_i ht
    subst ht
    simp only [if_true]
    split <;> rfl
  · rename_i ht
    rfl

theorem scheduled_expire {s1 : Sched} (hprev : s.currentTask ≠ .idle)
    (hs1 : s1.body = s.spent.body) (prevQ : Fin nrQueues) :
    Post (s1.expire s.currentTask prevQ) (Scheduled s) := by
  have hrequeue : (s1.requeue s.currentTask).body = (s.spent.setState s.currentTask .ready).body :=
    (enqueueTask_body _ _).trans (body_modify_congr hs1 _ fun _ => rfl)
  have hleft : ∀ {t}, ((s1.requeue s.currentTask).task t).quotaDone = false →
      (s.task t).quotaDone = false := fun h =>
    (quotaDone_spent s _).symm.trans ((quotaDone_eq hrequeue _).symm.trans h)
  refine (pick_pickOrIdle _).bind ?_
  rintro ⟨cand, s2⟩ ⟨h2, hcand⟩
  simp only
  split
  · -- only the running task itself was found
    rename_i heq
    subst heq
    refine (pick_pickFrom _ s2).bind ?_
    rintro ⟨lower, s3⟩ h3
    cases lower with
    | none => exact .some (.renew (h3.body.trans (h2.trans hrequeue))
        (hleft (hcand.resolve_left hprev)))
    | some lower =>
      refine .some (.switch (.inr ((enqueueTask_body _ _).trans
        (h3.body.trans (h2.trans hrequeue)))) (.inr (hleft ?_)))
      exact (quotaDone_eq h2 _).symm.trans (h3.left lower rfl)
  · exact .some (.switch (.inr (h2.trans hrequeue)) (hcand.imp_right hleft))

theorem scheduled_scheduleRunning (hprev : s.currentTask ≠ .idle)
    (hstate : (s.task s.currentTask).state ≠ .exited) :
    Post (s.scheduleRunning s.currentTask) (Scheduled s) := by
  refine (dequeueTask_body s _).bind fun s1 h1 => ?_
  set s2 := s1.modify s.currentTask fun task =>
    if 0 < task.timeslice then { task with timeslice := task.timeslice - 1 } else task with hs2
  have h2 : s2.body = s.spent.body := body_modify_congr h1 _ fun task => by
    by_cases hpos : 0 < task.timeslice
    · rw [if_pos hpos, if_pos (show 0 < task.body.timeslice from hpos)]
      rfl
    · rw [if_neg hpos, if_neg (show ¬0 < task.body.timeslice from hpos)]
      rfl
  refine Post.forall_bind fun cand => ?_
  split
  · refine (pick_pickOrIdle _).bind ?_
    rintro ⟨cand, s3⟩ ⟨h3, hcand⟩
    have hrequeue : (s2.requeue s.currentTask).body =
        (s.spent.setState s.currentTask .ready).body :=
      (enqueueTask_body _ _).trans (body_modify_congr h2 _ fun _ => rfl)
    refine .some (.switch (.inr (h3.trans hrequeue)) (hcand.imp_right fun h => ?_))
    exact (quotaDone_spent s _).symm.trans ((quotaDone_eq hrequeue _).symm.trans h)
  · split
    · exact scheduled_expire hprev h2 _
    · rename_i hslice
      exact .some (.goOn h2 hstate (Int.not_le.mp hslice))

theorem scheduled_schedule (s : Sched) : Post s.schedule (Scheduled s) := by
  have hpick : ∀ {s1 : Sched}, s1.body = s.body →
      Post (s1.pickOrIdle >>= fun r => some (r.2.switchToTask r.1)) (Scheduled s) := by
    intro s1 h1
    refine (pick_pickOrIdle s1).bind fun r h => .some (.switch (.inl (h.1.trans h1)) ?_)
    exact h.2.imp_right (quotaDone_eq h1 _).symm.trans
  unfold schedule
  simp only
  split
  · rename_i hidle
    refine (pick_pickFrom _ s).bind ?_
    rintro ⟨cand, s1⟩ h1
    cases cand with
    | none => exact .some (.idle hidle h1.body)
    | some cand => exact .some (.switch (.inl h1.body) (.inr (h1.left cand rfl)))
  · rename_i hidle
    split
    · exact hpick rfl
    · exact (dequeueTask_body s _).bind fun s1 h1 => hpick h1
    · rename_i hexited _
      exact scheduled_scheduleRunning hidle hexited

end Sched

/-! ## Relations between tasks -/

/-- The relation allows what queue operations write. -/
structure Queueing (R : Task → Task → Prop) : Prop where
  /-- nothing is written -/
  refl : ∀ a, R a a
  /-- one write after the other -/
  trans : ∀ {a b c}, R a b → R b c → R a c
  /-- `next` and `cur_queue` -/
  links : ∀ a next q, R a { a with next := next, curQueue := q }

/-- It also allows what `schedule` writes. -/
structure Scheduling (R : Task → Task → Prop) : Prop extends Queueing R where
  /-- a task is put back into its queue -/
  ready : ∀ a, R a { a with state := .ready }
  /-- a task is switched to -/
  running : ∀ a, R a { a with state := .running }
  timeslice : ∀ a n, R a { a with timeslice := n }

/-- It allows what changes of level write, and waking a task. -/
structure Waking (R : Task → Task → Prop) : Prop extends Queueing R where
  /-- a task is ready -/
  ready : ∀ a, R a { a with state := .ready }
  /-- `mlfq_level` -/
  level : ∀ a l, R a { a with mlfqLevel := l }
  /-- `mlfq_cont_ticks` -/
  contTicks : ∀ a n, R a { a with mlfqContTicks := n }

/-- The parent of a task that ends, if it waits: it is ready, and a user task starts anew. -/
def Task.woken (a : Task) : Task :=
  { a with
    state := .ready
    mlfqContTicks := if a.tier = .user then 0 else a.mlfqContTicks
    mlfqLevel := if a.tier = .user then 0 else a.mlfqLevel }

/-- The relation allows what the end of a task writes, to that task, its parent and its
children. -/
structure Closing (R : Task → Task → Prop) : Prop extends Queueing R where
  /-- the parent is woken -/
  woken : ∀ a, a.state = .waiting → R a a.woken
  /-- the task ends, and drops an inherited tier -/
  ended : ∀ a code, R a { a with
    state := .exited, exitCode := code, inherited := false, savedTier := .user, pagesCharged := 0 }
  /-- a child loses its parent -/
  orphan : ∀ a, R a { a with parent := none }

/-- It also allows what quota accounting writes. -/
structure Metering (R : Task → Task → Prop) : Prop extends Waking R where
  /-- `quota_used_ticks` and `quota_done` -/
  quota : ∀ a used done, R a { a with quotaUsedTicks := used, quotaDone := done }

/-- It allows changes of level and `schedule`. -/
structure Leveling (R : Task → Task → Prop) : Prop extends Scheduling R, Waking R

/-- It allows the end of a task and `schedule`. -/
structure Ending (R : Task → Task → Prop) : Prop extends Leveling R, Closing R

/-- It allows quota accounting and `schedule`. -/
structure Charging (R : Task → Task → Prop) : Prop extends Leveling R, Metering R

theorem Queueing.of_body {R : Task → Task → Prop} (hR : Queueing R) {a b : Task}
    (h : b.body = a.body) : R a b := by
  have hb : b = { b.body with next := b.next, curQueue := b.curQueue } := rfl
  rw [hb, h]
  exact hR.links a b.next b.curQueue

/-- What counts for the memory limit: `pages_charged` and `mem_limit`. -/
def Task.charge (task : Task) : ℕ × ℕ := (task.pagesCharged, task.memLimit)

namespace Sched

/-- Every task is related to what it was, and the counters and the watchdog's table are as
before. -/
structure Via (R : Task → Task → Prop) (s s' : Sched) : Prop where
  /-- each task -/
  task : ∀ t, R (s.task t) (s'.task t)
  pidCounter : s'.pidCounter = s.pidCounter
  pageDirectory : s'.pageDirectory = s.pageDirectory
  tickCount : s'.tickCount = s.tickCount
  wdTable : s'.wdTable = s.wdTable
  wdTick : s'.wdTick = s.wdTick

variable {R : Task → Task → Prop} {s s' s'' : Sched}

namespace Via

theorem of_body (hR : Queueing R) (h : s'.body = s.body) : Via R s s' :=
  ⟨fun t => hR.of_body (task_body_eq h t), (congrArg Sched.pidCounter h :),
    (congrArg Sched.pageDirectory h :), (congrArg Sched.tickCount h :),
    (congrArg Sched.wdTable h :), (congrArg Sched.wdTick h :)⟩

theorem refl (hR : Queueing R) (s : Sched) : Via R s s := .of_body hR rfl

theorem trans (hR : Queueing R) (h : Via R s s') (h' : Via R s' s'') : Via R s s'' :=
  ⟨fun t => hR.trans (h.task t) (h'.task t), h'.pidCounter.trans h.pidCounter,
    h'.pageDirectory.trans h.pageDirectory, h'.tickCount.trans h.tickCount,
    h'.wdTable.trans h.wdTable, h'.wdTick.trans h.wdTick⟩

theorem modify (hR : Queueing R) (s : Sched) (t : TaskPtr) (hf : R (s.task t) (f (s.task t))) :
    Via R s (s.modify t f) := by
  refine ⟨fun t' => ?_, rfl, rfl, rfl, rfl, rfl⟩
  rw [task_modify]
  split
  · rename_i ht
    exact ht ▸ hf
  · exact hR.refl _

end Via

theorem Via.relinking (hR : Queueing R) : Relinking (Via R) where
  trans h h' := h.trans hR h'
  body := .of_body hR

theorem Via.releveling (hR : Waking R) : Releveling (Via R) where
  toRelinking := Via.relinking hR.toQueueing
  level s t _ := .modify hR.toQueueing s t (hR.level _ _)
  contTicks s t _ := .modify hR.toQueueing s t (hR.contTicks _ _)
  ready s t := .modify hR.toQueueing s t (hR.ready _)

section Queues

variable (hR : Queueing R)
include hR

/-! ## Queues -/

theorem via_enqueueTask (s : Sched) (t : TaskPtr) : Via R s (s.enqueueTask t) :=
  .of_body hR (enqueueTask_body s t)

theorem via_dequeueTask (s : Sched) (t : TaskPtr) : Post (s.dequeueTask t) (Via R s) :=
  (dequeueTask_body s t).mono fun _ => .of_body hR

theorem via_waitCurrent (hwait : ∀ a, R a { a with state := .waiting }) (s : Sched) :
    Post s.waitCurrent (Via R s) :=
  (via_dequeueTask hR _ _).mono fun _ h => Via.trans hR (.modify hR s _ (hwait _)) h

theorem via_taskSetTier {tier : Tier} (htier : ∀ a, R a { a with tier := tier }) (s : Sched)
    (t : TaskPtr) : Post (s.taskSetTier t tier) (Via R s) :=
  frame_taskSetTier (Via.relinking hR) (fun s => .modify hR s t (htier _)) s

end Queues

section Schedule

variable (hR : Scheduling R)
include hR

/-! ## `schedule` -/

theorem via_setTaskTimeslice (s : Sched) (t : TaskPtr) : Via R s (s.setTaskTimeslice t) :=
  .modify hR.toQueueing s t (hR.timeslice _ _)

theorem via_switchToTask (s : Sched) (next : TaskPtr) : Via R s (s.switchToTask next) := by
  have hQ := hR.toQueueing
  have hcur : Via R s { s with currentTask := next } :=
    ⟨fun _ => hR.refl _, rfl, rfl, rfl, rfl, rfl⟩
  have hrun := hcur.trans hQ (.modify hQ _ next (f := fun task => { task with state := .running })
    (hR.running _))
  have h := hrun.trans hQ (via_setTaskTimeslice hR _ next)
  exact ⟨h.task, h.pidCounter, h.pageDirectory, h.tickCount, h.wdTable, h.wdTick⟩

theorem via_spent (s : Sched) : Via R s s.spent := by
  refine .modify hR.toQueueing s _ ?_
  split
  · exact hR.timeslice _ _
  · exact hR.refl _

/-- **`schedule` relates every task to what it was.** -/
theorem via_schedule (s : Sched) : Post s.schedule (Via R s) := by
  have hQ := hR.toQueueing
  have hready : ∀ {s1 : Sched}, s1.body = (s.spent.setState s.currentTask .ready).body →
      Via R s s1 := by
    intro s1 h1
    refine Via.trans hQ ?_ (.of_body hQ h1)
    exact (via_spent hR s).trans hQ (.modify hQ _ _ (hR.ready _))
  refine (scheduled_schedule s).mono fun s' h => ?_
  cases h with
  | idle _ hs => exact .of_body hQ hs
  | switch hfrom _ =>
    refine Via.trans hQ ?_ (via_switchToTask hR _ _)
    rcases hfrom with h1 | h1
    · exact .of_body hQ h1
    · exact hready h1
  | renew h1 _ => exact (hready h1).trans hQ (via_setTaskTimeslice hR _ _)
  | goOn hs _ _ => exact (via_spent hR s).trans hQ (.of_body hQ hs)

end Schedule

section Levels

variable (hR : Waking R)
include hR

/-! ## Levels -/

theorem via_taskSetMlfqLevel (s : Sched) (t : TaskPtr) (level : ℤ) :
    Post (s.taskSetMlfqLevel t level) (Via R s) :=
  frame_taskSetMlfqLevel (Via.releveling hR) s t level

theorem via_demote (s : Sched) : Post s.demote (Via R s) :=
  frame_demote (Via.releveling hR) s

theorem via_yieldCurrent (s : Sched) : Post s.yieldCurrent (Via R s) :=
  frame_yieldCurrent (Via.releveling hR) s

end Levels

/-! ## The end of a task -/

/-- The end of task `t` makes its children lose their parent. -/
def orphaned (t c : TaskPtr) (a : Task) : Task :=
  { a with
    parent := if c ≠ .idle ∧ a.inUse = true ∧ a.parent = some t then none else a.parent }

/-- What the end of task `t`, a child of `p`, makes of task `c`. -/
def exitTask (t : TaskPtr) (p : Option TaskPtr) (code : ℤ) (c : TaskPtr) (a : Task) : Task :=
  orphaned t c (if c = t then { a with
      state := .exited, exitCode := code, inherited := false, savedTier := .user,
      pagesCharged := 0 }
    else if p = some c ∧ a.state = .waiting then a.woken else a)

/-- The running task has ended, as far as the queues do not matter. -/
def ended (s : Sched) (code : ℤ) : Sched :=
  { s with
    task := fun c => exitTask s.currentTask (s.task s.currentTask).parent code c (s.task c)
    cr3 := s.pageDirectory }

theorem task_orphanChildren (s : Sched) (t c : TaskPtr) :
    (s.orphanChildren t).task c = orphaned t c (s.task c) := by
  cases c with
  | idle => simp [orphanChildren, orphaned]
  | slot i =>
    simp only [orphanChildren, orphaned]
    split
    · rename_i hchild
      simp [hchild]
    · rename_i hchild
      simp [hchild]

theorem wakeParent_body (s : Sched) (p : Option TaskPtr) : (s.wakeParent p).body =
    ({ s with task := fun c =>
        if p = some c ∧ (s.task c).state = .waiting then (s.task c).woken else s.task c } :
      Sched).body := by
  cases p with
  | none => simp [wakeParent]
  | some p =>
    have hwoken : (fun task : Task => if task.tier = .user then
        { task with state := .ready, mlfqContTicks := 0, mlfqLevel := 0 }
        else { task with state := .ready }) = Task.woken := by
      funext task
      split <;> simp [Task.woken, *]
    simp only [wakeParent, hwoken]
    split
    · rename_i hwait
      rw [enqueueTask_body, modify]
      congr 2
      funext c
      rw [Function.update_apply]
      by_cases hc : c = p
      · rw [if_pos hc, if_pos ⟨congrArg some hc.symm, hc ▸ hwait⟩, hc]
      · rw [if_neg hc, if_neg fun h => hc (Option.some.inj h.1).symm]
    · rename_i hwait
      have hsame : (fun c => if some p = some c ∧ (s.task c).state = .waiting then (s.task c).woken
          else s.task c) = s.task := by
        funext c
        rw [if_neg]
        rintro ⟨hc, hw⟩
        exact hwait (Option.some.inj hc ▸ hw)
      rw [hsame]

/-- **What `task_exit` does**, but for the queues. -/
theorem exitCurrent_body (s : Sched) (code : ℤ) :
    Post (s.exitCurrent code) fun s' => s'.body = (s.ended code).body := by
  refine (dequeueTask_body s _).bind fun s1 h1 => .some ?_
  set s2 := s1.modify s.currentTask fun task =>
    { task with state := .exited, exitCode := code } with hs2
  have hparent : (s2.task s.currentTask).parent = (s.task s.currentTask).parent := by
    rw [hs2, task_modify, if_pos rfl]
    exact task_read Task.parent (fun _ => rfl) h1 _
  rw [hparent]
  have h3 := wakeParent_body s2 (s.task s.currentTask).parent
  set s3 := s2.wakeParent (s.task s.currentTask).parent
  -- everything but the tasks and the loaded directory is as before
  have hrest : ∀ {β : Type} (f : Sched → β),
      (∀ (s : Sched) task, f (body { s with task := task }) = f s) → f s3 = f s := by
    intro β f hf
    calc f s3 = f s3.body := (hf s3 s3.task).symm
      _ = f s1 := by rw [h3]; exact hf s1 _
      _ = f s1.body := (hf s1 s1.task).symm
      _ = f s := by rw [h1]; exact hf s s.task
  refine body_ext (fun c => ?_) (hrest currentTask fun _ _ => rfl)
    (hrest pidCounter fun _ _ => rfl) (hrest pageDirectory fun _ _ => rfl)
    (hrest pageDirectory fun _ _ => rfl) (hrest tickCount fun _ _ => rfl)
    (hrest wdTable fun _ _ => rfl) (hrest wdTick fun _ _ => rfl)
  have hc3 := task_body_eq h3 c
  have hc1 := task_body_eq h1 c
  simp only [leaveAddressSpace, clearInherited, task_modify, task_orphanChildren, ended, exitTask]
  by_cases hc : c = s.currentTask
  · subst hc
    simp only [hs2, task_modify, if_true, reduceCtorEq, and_false, if_false] at hc3 ⊢
    have hbody := hc3.trans
      (congrArg (fun a : Task => { a with state := .exited, exitCode := code }) hc1)
    exact congrArg (fun a : Task => { orphaned s.currentTask s.currentTask a with
      inherited := false, savedTier := .user, pagesCharged := 0 }) hbody
  · simp only [hs2, task_modify, if_neg hc, state_eq h1 c] at hc3 ⊢
    split at hc3
    · rename_i hwoken
      rw [if_pos hwoken]
      exact congrArg (orphaned s.currentTask c) (hc3.trans (congrArg Task.woken hc1))
    · rename_i hwoken
      rw [if_neg hwoken]
      exact congrArg (orphaned s.currentTask c) (hc3.trans hc1)

/-- A relation that allows what the end of a task writes holds for each task. -/
theorem exitTask_of_closing (hR : Closing R) (t : TaskPtr) (p : Option TaskPtr) (code : ℤ)
    (c : TaskPtr) (a : Task) : R a (exitTask t p code c a) := by
  have horphan : ∀ b, R b (orphaned t c b) := by
    intro b
    unfold orphaned
    split
    · exact hR.orphan b
    · exact hR.refl b
  refine hR.trans ?_ (horphan _)
  split
  · exact hR.ended a code
  · split
    · rename_i hwoken
      exact hR.woken a hwoken.2
    · exact hR.refl a

/-- **`task_exit` relates every task to what it was.** -/
theorem via_exitCurrent (hR : Closing R) (s : Sched) (code : ℤ) :
    Post (s.exitCurrent code) (Via R s) := by
  have hended : Via R s (s.ended code) :=
    ⟨fun c => exitTask_of_closing hR _ _ _ c _, rfl, rfl, rfl, rfl, rfl⟩
  exact (exitCurrent_body s code).mono fun _ h =>
    hended.trans hR.toQueueing (.of_body hR.toQueueing h)

theorem currentTask_exitCurrent (s : Sched) (code : ℤ) :
    Post (s.exitCurrent code) fun s' => s'.currentTask = s.currentTask :=
  (exitCurrent_body s code).mono fun _ h => currentTask_eq (s := s.ended code) h

/-- What the end of task `t`, a child of `p`, makes of task `c`. -/
structure Exits (t : TaskPtr) (p : Option TaskPtr) (c : TaskPtr) (a b : Task) : Prop where
  pid : b.pid = a.pid
  cr3 : b.cr3 = a.cr3
  inUse : b.inUse = a.inUse
  managed : b.wdManaged = a.wdManaged
  /-- only the task's charge is gone -/
  charge : c ≠ t → b.charge = a.charge
  /-- the task has ended, and no other -/
  exited : b.state = .exited ↔ c = t ∨ a.state = .exited
  /-- its parent does not wait any more, and nobody has begun to -/
  waiting : b.state = .waiting → a.state = .waiting ∧ p ≠ some c
  /-- its children have no parent any more -/
  parent : b.parent = if c ≠ .idle ∧ a.inUse = true ∧ a.parent = some t then none else a.parent

theorem Exits.parent_cases {t c : TaskPtr} {p : Option TaskPtr} {a b : Task}
    (h : Exits t p c a b) : b.parent = a.parent ∨ a.parent = some t ∧ b.parent = none := by
  have hparent := h.parent
  split at hparent
  · rename_i hchild
    exact .inr ⟨hchild.2.2, hparent⟩
  · exact .inl hparent

theorem exits_exitTask (t : TaskPtr) (p : Option TaskPtr) (code : ℤ) (c : TaskPtr) (a : Task) :
    Exits t p c a (exitTask t p code c a).body := by
  unfold exitTask
  split
  · rename_i hc
    exact ⟨rfl, rfl, rfl, rfl, fun h => absurd hc h, ⟨fun _ => .inl hc, fun _ => rfl⟩, nofun, rfl⟩
  · rename_i hc
    split
    · rename_i hwoken
      refine ⟨rfl, rfl, rfl, rfl, fun _ => rfl, ⟨nofun, ?_⟩, nofun, rfl⟩
      rintro (rfl | he)
      · exact absurd rfl hc
      · cases hwoken.2.symm.trans he
    · rename_i hwoken
      exact ⟨rfl, rfl, rfl, rfl, fun _ => rfl, ⟨.inr, fun h => h.resolve_left hc⟩,
        fun hw => ⟨hw, fun hp => hwoken ⟨hp, hw⟩⟩, rfl⟩

/-- **What `task_exit` does to the process table.** -/
theorem exits_exitCurrent (s : Sched) (code : ℤ) : Post (s.exitCurrent code) fun s' =>
    s'.wdTable = s.wdTable ∧ s'.pageDirectory = s.pageDirectory ∧
      ∀ c, Exits s.currentTask (s.task s.currentTask).parent c (s.task c) (s'.task c) := by
  refine (exitCurrent_body s code).mono fun s' h =>
    ⟨(congrArg wdTable h :), (congrArg pageDirectory h :), fun c => ?_⟩
  have hc := exits_exitTask s.currentTask (s.task s.currentTask).parent code c (s.task c)
  have hbody : (s'.task c).body = (exitTask _ _ code c (s.task c)).body := task_body_eq h c
  rw [← hbody] at hc
  exact ⟨hc.pid, hc.cr3, hc.inUse, hc.managed, hc.charge, hc.exited, hc.waiting, hc.parent⟩

/-! ## New tasks -/

/-- Slot `i` is given to a task. -/
def created (s : Sched) (i : Fin maxTasks) (fields : Task) : Sched :=
  { s with pidCounter := s.pidCounter + 1 }.modify (.slot i) fun _ =>
    { fields with pid := s.pidCounter, inUse := true, state := .ready }

/-- **What the creation of a task does**, but for the queues. -/
theorem createAndEnqueue_cases (s : Sched) (fields : Task) :
    s.createTaskSlot = (none, s) ∧ s.createAndEnqueue fields = s ∨
      ∃ i s1, s.createTaskSlot = (some i, s1) ∧ (s.task (.slot i)).inUse = false ∧
        (s.createAndEnqueue fields).body = (s.created i fields).body := by
  unfold createAndEnqueue
  rcases hslot : s.createTaskSlot with ⟨_ | i, s1⟩
  · obtain rfl := createTaskSlot_none hslot
    exact .inl ⟨rfl, rfl⟩
  · have hfree := (newSlot_of_createTaskSlot hslot).free
    refine .inr ⟨i, s1, rfl, hfree, (enqueueTask_body _ _).trans ?_⟩
    unfold createTaskSlot at hslot
    split at hslot
    · cases (Prod.mk.inj hslot).1
    · obtain ⟨hi, rfl⟩ := Prod.mk.inj hslot
      cases hi
      refine body_ext (fun t => ?_) rfl rfl rfl rfl rfl rfl rfl
      simp only [created, task_modify]
      split <;> rfl

/-- A task in use is not written to. -/
theorem task_createAndEnqueue (hR : Queueing R) (fields : Task) {t : TaskPtr}
    (huse : (s.task t).inUse = true) : R (s.task t) ((s.createAndEnqueue fields).task t) := by
  rcases s.createAndEnqueue_cases fields with ⟨-, hsame⟩ | ⟨i, s1, -, hfree, hbody⟩
  · rw [hsame]
    exact hR.refl _
  · have hne : t ≠ .slot i := by
      rintro rfl
      cases hfree.symm.trans huse
    have hv := (Via.of_body hR hbody).task t
    rw [created, task_modify, if_neg hne] at hv
    exact hv

/-! ## The timer -/

variable {P : Sched → Prop}

/-- What freeing the slot of an ended task keeps, the watchdog's loop keeps. -/
theorem wdTickAll_rule (hfree : ∀ s t, (s.task t).state = .exited → P s → P (s.freeTaskSlot t))
    (es : List WdEntry) : ∀ {s : Sched}, P s → P (s.wdTickAll es).2 := by
  induction es with
  | nil => exact fun h => h
  | cons e es ih =>
    intro s h
    have he : P (s.wdEntryTick e).2 := by
      rcases s.wdEntryTick_cases e with hsame | ⟨t, hexited, hslot⟩
      · rw [hsame]
        exact h
      · rw [hslot]
        exact hfree s t hexited h
    exact ih he

/-- The same for all of `watchdog_tick`, for what is not about the watchdog. -/
theorem watchdogTick_rule (hsame : ∀ s n table, P s → P { s with wdTick := n, wdTable := table })
    (hfree : ∀ s t, (s.task t).state = .exited → P s → P (s.freeTaskSlot t)) (h : P s) :
    P s.watchdogTick := by
  have hcount : P { s with wdTick := (s.wdTick + 1) % 2 ^ 32 } := hsame s _ s.wdTable h
  exact hsame _ _ _ (wdTickAll_rule hfree s.wdTable hcount)

/-- The periodic work after the watchdog's turn. -/
def ageAndReset (s : Sched) : Option Sched := do
  let s ← (if s.tickCount % mlfqAgingTicks = 0 then s.taskMlfqAging else some s)
  return if s.tickCount % quotaPeriodTicks = 0 then s.taskQuotaPeriodReset else s

theorem periodic_eq (s : Sched) :
    s.periodic = ageAndReset (if s.tickCount % 50 = 0 then s.watchdogTick else s) := rfl

theorem post_ageAndReset (haging : ∀ s, P s → Post s.taskMlfqAging P)
    (hreset : ∀ s, P s → P s.taskQuotaPeriodReset) {s : Sched} (h : P s) :
    Post s.ageAndReset P := by
  refine Post.bind (P := P) ?_ fun s1 h1 => .some ?_
  · split
    · exact haging s h
    · exact .some h
  · split
    · exact hreset s1 h1
    · exact h1

/-- Any relation at all. -/
theorem waking_true : Waking fun _ _ => True where
  refl _ := trivial
  trans _ _ := trivial
  links _ _ _ := trivial
  ready _ := trivial
  level _ _ := trivial
  contTicks _ _ := trivial

/-- What the watchdog, aging and the quota reset keep, the periodic work keeps. -/
theorem post_periodic (hwatchdog : ∀ s, P s → P s.watchdogTick)
    (haging : ∀ s, P s → Post s.taskMlfqAging P) (hreset : ∀ s, P s → P s.taskQuotaPeriodReset)
    {s : Sched} (h : P s) : Post s.periodic P := by
  rw [periodic_eq]
  refine post_ageAndReset haging hreset ?_
  split
  · exact hwatchdog s h
  · exact h

/-- What a longer table and a mark keep, `watchdog_register` keeps. -/
theorem watchdogRegister_rule (htable : ∀ (s : Sched) es, P s → P { s with wdTable := es })
    (hmanaged : ∀ (s : Sched) t, P s → P (s.modify t fun task => { task with wdManaged := true }))
    (h : P s) (path : CStr) (tier : Tier) (t : Option TaskPtr) :
    P (s.watchdogRegister path tier t).2 := by
  unfold watchdogRegister
  split
  · exact h
  · cases t with
    | none => exact htable s _ h
    | some t => exact hmanaged _ t (htable s _ h)

/-- The preorder also allows what the timer does to a task that is not to die, the watchdog's turn
apart. -/
structure Ticking (T : Sched → Sched → Prop) : Prop extends Releveling T where
  /-- `tick_count` -/
  count : ∀ s n, T s { s with tickCount := n }
  /-- a tick is charged -/
  charge : ∀ s, T s s.chargeQuota
  /-- a new period -/
  reset : ∀ s, T s s.taskQuotaPeriodReset

theorem via_chargeQuota (hR : Metering R) (s : Sched) : Via R s s.chargeQuota := by
  refine .modify hR.toQueueing s _ ?_
  split
  · exact hR.quota _ _ _
  · exact hR.refl _

theorem via_taskQuotaPeriodReset (hR : Metering R) (s : Sched) :
    Via R s s.taskQuotaPeriodReset := by
  refine ⟨fun t => ?_, rfl, rfl, rfl, rfl, rfl⟩
  cases t with
  | idle => exact hR.refl _
  | slot i =>
    unfold taskQuotaPeriodReset
    simp only
    split
    · exact hR.quota _ _ _
    · exact hR.refl _

/-- **The timer**, if the preorder also allows the watchdog's turn and the end of the running task
where these are due. -/
theorem frame_pitHandler {T : Sched → Sched → Prop} (hT : Ticking T) (s : Sched)
    (hdies : (s.task s.currentTask).killPending = true →
      Post (({ s with tickCount := (s.tickCount + 1) % 2 ^ 32 }.modify s.currentTask fun task =>
        { task with killPending := false }).exitCurrent (-9)) (T s))
    (hwatchdog : (s.task s.currentTask).killPending = false →
      (s.tickCount + 1) % 2 ^ 32 % 50 = 0 → ∀ s1 : Sched, T s1 s1.watchdogTick) :
    Post s.pitHandler (T s) := by
  unfold pitHandler
  simp only
  split
  · rename_i hkill
    exact hdies hkill
  · rename_i hkill
    refine Post.bind ((frame_demote hT.toReleveling _).and (via_demote waking_true _))
      fun s1 ⟨h1, hv⟩ => ?_
    have h1 := hT.trans (hT.count s _) (hT.trans (hT.charge _) h1)
    rw [periodic_eq]
    refine post_ageAndReset (fun s2 h2 => ?_) (fun s2 h2 => hT.trans h2 (hT.reset s2)) ?_
    · exact (frame_taskMlfqAging hT.toReleveling s2).mono fun _ h => hT.trans h2 h
    · split
      · rename_i hfires
        rw [hv.tickCount] at hfires
        exact hT.trans h1 (hwatchdog (Bool.eq_false_iff.mpr hkill) hfires s1)
      · exact h1

theorem ticking_stays : Ticking Stays where
  toReleveling := releveling_stays
  count _ _ := ⟨rfl, rfl⟩
  charge _ := ⟨rfl, rfl⟩
  reset _ := ⟨rfl, rfl⟩

theorem stays_watchdogTick (s : Sched) : Stays s s.watchdogTick := by
  refine watchdogTick_rule (P := Stays s) (fun _ _ _ h => ⟨h.currentTask, h.cr3⟩)
    (fun _ t _ h => ?_) (.refl s)
  cases t <;> exact ⟨h.currentTask, h.cr3⟩

theorem watchdogTick_nil (h : s.wdTable = []) :
    s.watchdogTick = { s with wdTick := (s.wdTick + 1) % 2 ^ 32 } := by
  unfold watchdogTick
  simp only [h, wdTickAll]

/-- The timer without watchdog entries, while the running task is not to die. -/
theorem tasks_pitHandler (hR : Metering R) (hwd : s.wdTable = [])
    (hkill : (s.task s.currentTask).killPending = false) :
    Post s.pitHandler fun s' => (∀ t, R (s.task t) (s'.task t)) ∧ s'.wdTable = [] := by
  have hticking : Ticking fun s s' =>
      s.wdTable = [] → (∀ t, R (s.task t) (s'.task t)) ∧ s'.wdTable = [] :=
    { trans := fun h h' hwd =>
        ⟨fun t => hR.trans ((h hwd).1 t) ((h' (h hwd).2).1 t), (h' (h hwd).2).2⟩
      body := fun h hwd =>
        ⟨(Via.of_body hR.toQueueing h).task, (congrArg wdTable h :).trans hwd⟩
      level := fun s t _ hwd => ⟨(Via.modify hR.toQueueing s t (hR.level _ _)).task, hwd⟩
      contTicks := fun s t _ hwd => ⟨(Via.modify hR.toQueueing s t (hR.contTicks _ _)).task, hwd⟩
      ready := fun s t hwd => ⟨(Via.modify hR.toQueueing s t (hR.ready _)).task, hwd⟩
      count := fun _ _ hwd => ⟨fun _ => hR.refl _, hwd⟩
      charge := fun s hwd => ⟨(via_chargeQuota hR s).task, hwd⟩
      reset := fun s hwd => ⟨(via_taskQuotaPeriodReset hR s).task, hwd⟩ }
  refine (frame_pitHandler hticking s (fun hdies => nomatch hkill.symm.trans hdies)
    fun _ _ s1 hwd1 => ?_).mono fun _ h => h hwd
  rw [watchdogTick_nil hwd1]
  exact ⟨fun _ => hR.refl _, hwd1⟩

/-! ## All events -/

/-- The preorder follows from `Via R`, and allows what `R` does not speak of. -/
structure Eventful (R : Task → Task → Prop) (T : Sched → Sched → Prop) : Prop where
  /-- single writes -/
  allows : Charging R
  tier : ∀ a tier, R a { a with tier := tier }
  /-- one write after the other -/
  trans : ∀ {s s' s''}, T s s' → T s' s'' → T s s''
  /-- tasks that are related -/
  via : ∀ {s s'}, Via R s s' → T s s'
  /-- `tick_count` -/
  count : ∀ s n, T s { s with tickCount := n }
  /-- a task is marked to die -/
  kill : ∀ s i, T s (s.modify (.slot i) fun task => { task with killPending := true })
  /-- and dies -/
  dies : ∀ s t, T s (s.modify t fun task => { task with killPending := false })
  /-- the slot of a task that has ended is freed -/
  free : ∀ s i, (s.task (.slot i)).state = .exited → T s (s.freeTaskSlot (.slot i))
  /-- `watchdog_register` -/
  register : ∀ s path tier t, T s (s.watchdogRegister path tier t).2
  /-- a task is created -/
  create : ∀ s fields, T s (s.createAndEnqueue fields)
  /-- `task_exit` -/
  exit : ∀ s code, Post (s.exitCurrent code) (T s)

section Eventful

variable {T : Sched → Sched → Prop} (hT : Eventful R T)
include hT

theorem Eventful.ticking : Ticking T where
  trans := hT.trans
  body h := hT.via (.of_body hT.allows.toQueueing h)
  level s t _ := hT.via (.modify hT.allows.toQueueing s t (hT.allows.level _ _))
  contTicks s t _ := hT.via (.modify hT.allows.toQueueing s t (hT.allows.contTicks _ _))
  ready s t := hT.via (.modify hT.allows.toQueueing s t (hT.allows.toScheduling.ready _))
  count := hT.count
  charge s := hT.via (via_chargeQuota hT.allows.toMetering s)
  reset s := hT.via (via_taskQuotaPeriodReset hT.allows.toMetering s)

/-- **Every event keeps to the preorder**, where `sys_wait` and the watchdog's turn do. -/
theorem Eventful.step {e : SchedEvent} (hallowed : schedSystem.allowed s e)
    (hwait : e = .wait → Post s.waitCurrent (T s))
    (hwatchdog : e = .tick → (s.task s.currentTask).killPending = false →
      (s.tickCount + 1) % 2 ^ 32 % 50 = 0 → ∀ s1 : Sched, T s1 s1.watchdogTick) :
    Post (schedSystem.step s e) (T s) := by
  have hQ := hT.allows.toQueueing
  have hbefore : Post (e.before s) (T s) := by
    cases e with
    | create fields => exact .some (hT.create s fields)
    | tick =>
      refine frame_pitHandler hT.ticking s (fun _ => ?_) (hwatchdog rfl)
      exact (hT.exit _ _).mono fun _ h => hT.trans (hT.count s _) (hT.trans (hT.dies _ _) h)
    | yield => exact (via_yieldCurrent hT.allows.toWaking s).mono fun _ => hT.via
    | wait => exact hwait rfl
    | exit code => exact hT.exit s code
    | setTier i tier => exact (via_taskSetTier hQ (hT.tier · tier) s _).mono fun _ => hT.via
    | setLevel i level =>
      exact (via_taskSetMlfqLevel hT.allows.toWaking s _ level).mono fun _ => hT.via
    | schedule => exact .some (hT.via (.refl hQ s))
    | kill i => exact .some (hT.kill s i)
    | register path tier i => exact .some (hT.register s path tier _)
    | reap i => exact .some (hT.free s i hallowed)
  refine hbefore.bind fun s1 h1 => ?_
  split
  · exact (via_schedule hT.allows.toScheduling s1).mono fun _ h => hT.trans h1 (hT.via h)
  · exact .some h1

end Eventful

end Sched

end PokuOS
