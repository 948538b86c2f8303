import PokuOS.SchedInv

/-!
# Runs of the scheduler

Every event keeps the invariant `Stable`, except a call of `schedule` in a state with
`doubleEnqueue`. Each function that runs before `schedule` keeps `Sound` with the running task
as the only exception (`Sound.taskSetMlfqLevel`, `Sound.exitCurrent` and so on);
`stable_schedule` takes it from there.
-/

namespace PokuOS

open List Sched Set

namespace Sched

variable {P : TaskPtr → Option TaskPtr → Prop} {s s' : Sched} {Q : Fin nrQueues → List TaskPtr}
  {E : Set TaskPtr} {t : TaskPtr}

/-! ## `schedule` -/

/-- What holds when `schedule` is called: the running task goes on, or it waits or has ended. -/
def Entered (P : TaskPtr → Option TaskPtr → Prop) (s : Sched) : Prop :=
  Stable P s ∨ ∃ Q, Sound P s Q ∅ ∧ s.currentTask ≠ .idle ∧
    ((s.task s.currentTask).state = .waiting ∨ (s.task s.currentTask).state = .exited)

variable {prev : TaskPtr}

/-- `Crowded` reads the quota flags and the index of `prev`. -/
theorem Crowded.congr (hdone : ∀ p, (s'.task p).quotaDone = (s.task p).quotaDone)
    (hidx : taskQidx (s'.task prev) = taskQidx (s.task prev)) :
    Crowded s' Q prev ↔ Crowded s Q prev := by
  unfold Crowded AllDone
  simp only [hdone, hidx]

theorem Sound.stable {c : TaskPtr} (h : Sound P s Q {c}) (hcur : s.currentTask = c) : Stable P s :=
  ⟨Q, hcur ▸ h⟩

/-- The invariant with the exceptions `E` up to a call of `schedule`: the running task is the only
exception, or there is none and it waits. -/
structure Poised (P : TaskPtr → Option TaskPtr → Prop) (E : Set TaskPtr) (s : Sched) : Prop where
  /-- the queues are sound -/
  sound : ∃ Q, Sound P s Q E
  /-- at most the running task is an exception -/
  only : E ⊆ {s.currentTask}
  /-- it is one unless it waits -/
  current : s.currentTask ∈ E ∨ (s.task s.currentTask).state = .waiting

theorem Stable.poised (h : Stable P s) : Poised P {s.currentTask} s := ⟨h, subset_rfl, .inl rfl⟩

theorem Poised.stable {c : TaskPtr} (h : Poised P {c} s) : Stable P s := by
  obtain ⟨Q, hsound⟩ := h.sound
  exact hsound.stable (singleton_subset_iff.mp h.only).symm

/-- A running task that does not wait is the exception. -/
theorem Poised.stable_of_awake (h : Poised P E s)
    (hawake : (s.task s.currentTask).state ≠ .waiting) : Stable P s := by
  have hE : E = {s.currentTask} := h.only.antisymm
    (singleton_subset_iff.mpr (h.current.resolve_right hawake))
  exact (hE ▸ h).stable

theorem Poised.entered (h : Poised P E s) : Entered P s := by
  by_cases hwait : (s.task s.currentTask).state = .waiting
  · obtain ⟨Q, hsound⟩ := h.sound
    have hidle := ((hsound.tasks _).waiting hwait).1
    have hE : E = ∅ := eq_empty_iff_forall_notMem.mpr fun t ht => by
      have hcur : t = s.currentTask := h.only ht
      subst hcur
      rcases ((hsound.tasks _).excepted hidle ht).2 with hs | hs <;>
        exact nomatch hwait.symm.trans hs
    exact .inr ⟨Q, hE ▸ hsound, hidle, .inl hwait⟩
  · exact .inl (h.stable_of_awake hwait)

/-- The running task goes on in its state. -/
theorem Poised.keep (h : Poised P E s) (hsound : Sound P s' Q E)
    (hcur : s'.currentTask = s.currentTask)
    (hstate : (s'.task s.currentTask).state = (s.task s.currentTask).state) : Poised P E s' := by
  refine ⟨⟨Q, hsound⟩, hcur ▸ h.only, ?_⟩
  rw [hcur, hstate]
  exact h.current

/-- The slice of a running task after `schedule` has counted it down. -/
def sliceLeft (task : Task) : ℤ :=
  if 0 < task.timeslice then task.timeslice - 1 else task.timeslice

theorem sliceLeft_nonpos {task : Task} : sliceLeft task ≤ 0 ↔ task.timeslice ≤ 1 := by
  unfold sliceLeft
  split <;> omega

/-- The running task has left its queue and used a tick of its slice: `s'` is the state in which
`schedule` decides. -/
structure Decides (s : Sched) (Q : Fin nrQueues → List TaskPtr) (s' : Sched) : Prop where
  /-- it is in no queue -/
  queues : Queues s' (without Q s.currentTask)
  /-- nobody's quota has changed -/
  quotaDone : ∀ p, (s'.task p).quotaDone = (s.task p).quotaDone
  /-- nor anybody's tier or level -/
  taskQidx : ∀ p, taskQidx (s'.task p) = PokuOS.taskQidx (s.task p)
  /-- its slice is counted down -/
  slice : (s'.task s.currentTask).timeslice = sliceLeft (s.task s.currentTask)
  /-- it still runs -/
  current : s'.currentTask = s.currentTask
  /-- the decision -/
  running : ∀ {cand}, s'.peekNextTask = some cand → s.scheduleRunning s.currentTask =
    if cand.any fun c =>
        PokuOS.taskQidx (s'.task c) < PokuOS.taskQidx (s.task s.currentTask) then do
      let (cand, s) ← (s'.requeue s.currentTask).pickOrIdle
      return s.switchToTask cand
    else if (s'.task s.currentTask).timeslice ≤ 0 then
      s'.expire s.currentTask (PokuOS.taskQidx (s.task s.currentTask))
    else return s'

/-- Changes to tasks that keep their links. -/
theorem Queues.modify (h : Queues s Q) {f : Task → Task} (hf : ∀ task, (f task).next = task.next) :
    Queues (s.modify t f) Q := by
  exact ⟨fun q => (h.fifo q).congr fun p _ => read_modify Task.next hf s t p, h.disjoint⟩

/-- The first half of `schedule` for a running task. -/
theorem decides_dequeued (hdeq : s.dequeueTask s.currentTask = some s')
    (hQ : Queues s' (without Q s.currentTask)) (hbody : s'.body = s.body) :
    Decides s Q (s'.modify s.currentTask fun task =>
      if 0 < task.timeslice then { task with timeslice := task.timeslice - 1 } else task) := by
  refine ⟨hQ.modify fun task => by split <;> rfl, fun p => ?_, fun p => ?_, ?_,
    show s'.currentTask = _ from currentTask_eq hbody, fun hpeek => ?_⟩
  · rw [← quotaDone_eq hbody]
    exact read_modify Task.quotaDone (fun _ => by split <;> rfl) ..
  · rw [← taskQidx_eq hbody]
    exact read_modify PokuOS.taskQidx (fun _ => by split <;> rfl) ..
  · rw [sliceLeft, ← task_read Task.timeslice (fun _ => rfl) hbody, task_modify, if_pos rfl]
    split <;> rfl
  · rw [scheduleRunning, bind_of_some hdeq, ← taskQidx_eq hbody]
    exact bind_of_some hpeek _

theorem Sound.slice (h : Sound P s Q {s.currentTask}) :
    ∃ s' cand, Decides s Q s' ∧ Sound P s' (without Q s.currentTask) {s.currentTask} ∧
      (∀ q, s.currentTask ∉ without Q s.currentTask q) ∧ s'.peekNextTask = some cand := by
  obtain ⟨s1, hdeq, hsound, habs, hr⟩ := h.dequeue rfl
  have hd := decides_dequeued hdeq hsound.queues hr.body
  obtain ⟨cand, hcand⟩ : ∃ cand, Sched.peekNextTask _ = some cand := by
    rcases exists_firstReady _ (without Q s.currentTask) (finRange 5) with
      hnone | ⟨q, pre, t, post, hfirst⟩
    · exact ⟨_, hd.queues.peekFrom_none hnone⟩
    · exact ⟨_, hd.queues.peekFrom hfirst⟩
  exact ⟨_, cand, hd, hsound.modify_other fun task => by split <;> rfl, habs, hcand⟩

/-- **The running task goes on, is preempted or has used up its slice.** -/
theorem Sound.scheduleRunning (h : Sound P s Q {s.currentTask}) (hidle : s.currentTask ≠ .idle)
    (hno : ¬ doubleEnqueue s) :
    ∃ s', s.scheduleRunning s.currentTask = some s' ∧ Stable P s' := by
  obtain ⟨s2, cand, hd, hsound, habs, hpeek⟩ := h.slice
  rw [hd.running hpeek]
  split
  · -- preempted
    obtain ⟨t, s3, hpick, hstable⟩ := (hsound.requeue habs hidle).pickOrIdle
    exact ⟨_, bind_of_some hpick _, hstable⟩
  split
  · -- the slice is used up
    rename_i hslice
    rw [hd.slice, sliceLeft_nonpos] at hslice
    rw [← hd.taskQidx]
    refine hsound.expire habs hidle hd.current fun hcrowded => hno ?_
    refine ⟨hidle, ((h.tasks _).excepted hidle rfl).2, hslice, ?_⟩
    rw [h.queues.queueOf_eq]
    exact (Crowded.congr hd.quotaDone (hd.taskQidx _)).mp hcrowded
  · -- it goes on
    exact ⟨s2, rfl, hsound.stable hd.current⟩

/-- **`schedule`** returns and keeps the invariant, unless it enqueues a queued task. -/
theorem Entered.stable_schedule (h : Entered P s) (hno : ¬ doubleEnqueue s) :
    ∃ s', s.schedule = some s' ∧ Stable P s' := by
  unfold schedule
  rcases h with ⟨Q, hsound⟩ | ⟨Q, hsound, hidle, hstate⟩
  · by_cases hidle : s.currentTask = .idle
    · rw [if_pos hidle]
      rw [hidle] at hsound
      have hlift := hsound.lift_idle
      rcases exists_firstReady s Q (finRange 5) with hnone | ⟨q, pre, t, post, hfirst⟩
      · refine ⟨s, ?_, Q, hidle ▸ hsound⟩
        rw [pickNextTask, bind_of_some (hlift.queues.pickFrom_none hnone)]
        rfl
      · obtain ⟨s', hpick, hpicked, -⟩ := hlift.pick hfirst
        rw [insert_empty_eq] at hpicked
        refine ⟨s'.switchToTask t, ?_, hpicked.switchToTask⟩
        rw [pickNextTask, bind_of_some hpick]
        rfl
    · rw [if_neg hidle]
      obtain ⟨s', hrun, hstable⟩ := hsound.scheduleRunning hidle hno
      refine ⟨s', ?_, hstable⟩
      rcases ((hsound.tasks s.currentTask).excepted hidle rfl).2 with hstate | hstate <;>
        simpa only [hstate] using hrun
  · obtain ⟨t, s', hpick, hstable⟩ := hsound.pickOrIdle
    rw [if_neg hidle]
    refine ⟨_, ?_, hstable⟩
    rcases hstate with hstate | hstate
    · have habs : ∀ q, s.currentTask ∉ Q q := fun q hq => by
        have := ((hsound.tasks s.currentTask).ready q hq (notMem_empty _)).1
        rw [hstate] at this
        cases this
      simp only [hstate]
      rw [bind_of_some (hsound.queues.dequeue_absent habs), bind_of_some hpick]
      rfl
    · simp only [hstate]
      rw [bind_of_some hpick]
      rfl

/-! ## Tiers and levels -/

theorem Sound.unqueue (h : Sound P s Q E) (hidle : t ≠ .idle) (hready : (s.task t).state = .ready)
    (hE : t ∉ E) :
    ∃ s', s.dequeueTask t = some s' ∧ Sound P s' (without Q t) (insert t E) ∧
      (∀ q, t ∉ without Q t q) ∧ Moved Q s s' := by
  obtain ⟨q, hq⟩ := (h.tasks t).covered hidle hready hE
  have hexcept := h.except fun _ => ⟨((h.tasks t).member q hq).2.1, .inr hready⟩
  exact hexcept.dequeue (mem_insert t E)

variable {f : Task → Task}

/-- Changing the tier or the level of a task that is excepted, or not queued, or stays in its
queue. -/
theorem Sound.modify_index (h : Sound P s Q E)
    (hf : ∀ task, (f task).next = task.next ∧ (f task).curQueue = task.curQueue ∧
      (f task).inUse = task.inUse ∧ (f task).state = task.state ∧
      (f task).killPending = task.killPending)
    (hidx : t ∉ E → (s.task t).state = .ready → taskQidx (f (s.task t)) = taskQidx (s.task t)) :
    Sound P (s.modify t f) Q E := by
  obtain ⟨hnext, hcur, hinUse, hstate, hkill⟩ := hf (s.task t)
  refine h.queues.sound_modify (fun p _ => h.tasks p) (fun _ _ => hnext)
    ((h.tasks t).congr (fun _ _ => hnext) hinUse hcur hstate (fun hE hq => hidx hE ?_)
      fun _ => hkill)
  obtain ⟨q, hq⟩ := hq
  exact ((h.tasks t).ready q hq hE).1

theorem enqueueTask_currentTask : (s.enqueueTask t).currentTask = s.currentTask :=
  currentTask_eq (enqueueTask_body s t)

/-- **`task_set_tier`** keeps the invariant. -/
theorem Poised.taskSetTier (h : Poised P E s) (ht : t ≠ .idle ∨ t = s.currentTask) (tier : Tier) :
    ∃ s', s.taskSetTier t tier = some s' ∧ Poised P E s' := by
  obtain ⟨Q, hsound⟩ := h.sound
  by_cases hmove : taskQidx (s.task t) ≠ queueIdx tier (s.task t).mlfqLevel ∧
      (s.task t).state = .ready ∧ t ≠ s.currentTask
  · have hidle : t ≠ .idle := ht.resolve_right hmove.2.2
    have hE : t ∉ E := fun hE => hmove.2.2 (h.only hE)
    obtain ⟨s1, hdeq, hsound1, habs, hr⟩ := hsound.unqueue hidle hmove.2.1 hE
    have hsound2 : Sound P (s1.modify t fun task => { task with tier := tier })
        (without Q t) (insert t E) :=
      hsound1.modify_index (fun _ => ⟨rfl, rfl, rfl, rfl, rfl⟩)
        fun hE => absurd (mem_insert _ _) hE
    have hsound3 := hsound2.enqueue habs hidle
      ((hsound2.tasks t).excepted hidle (mem_insert _ _)).1
      (by rw [task_modify, if_pos rfl]; exact (state_eq hr.body _).trans hmove.2.1)
    have hcur : s1.currentTask = s.currentTask := currentTask_eq hr.body
    refine ⟨_, (if_pos hmove).trans (bind_of_some hdeq _),
      h.keep hsound3 (enqueueTask_currentTask.trans hcur) ?_⟩
    rw [state_eq (enqueueTask_body _ _), task_modify, if_neg hmove.2.2.symm, state_eq hr.body]
  · have hset : Sound P (s.modify t fun task => { task with tier := tier }) Q E := by
      refine hsound.modify_index (fun _ => ⟨rfl, rfl, rfl, rfl, rfl⟩) fun hE hready => ?_
      by_contra hne
      refine hmove ⟨Ne.symm hne, hready, fun hcur => ?_⟩
      -- a ready task that runs is an exception
      rw [hcur] at hE hready
      cases (h.current.resolve_left hE).symm.trans hready
    exact ⟨_, if_neg hmove, h.keep hset rfl (read_modify Task.state (fun _ => by rfl) ..)⟩

/-- **`task_set_mlfq_level`** keeps the invariant. -/
theorem Poised.taskSetMlfqLevel (h : Poised P E s) (ht : t ≠ .idle ∨ t = s.currentTask)
    (level : ℤ) :
    ∃ s', s.taskSetMlfqLevel t level = some s' ∧ Poised P E s' := by
  obtain ⟨Q, hsound⟩ := h.sound
  by_cases hsame : (s.task t).mlfqLevel = (clampLevel level).val
  · exact ⟨s, if_pos hsame, h⟩
  set s1 := s.modify t fun task => { task with mlfqLevel := (clampLevel level).val } with hs1
  have hstate1 : ∀ p, (s1.task p).state = (s.task p).state :=
    read_modify Task.state (fun _ => by rfl) s t
  by_cases hmove : taskQidx (s.task t) ≠ taskQidx (s1.task t) ∧
      (s1.task t).state = .ready ∧ t ≠ s1.currentTask
  · -- the level changes before the task leaves its queue
    have hidle : t ≠ .idle := ht.resolve_right hmove.2.2
    have hE : t ∉ E := fun hE => hmove.2.2 (h.only hE)
    obtain ⟨q, hq⟩ := (hsound.tasks t).covered hidle (hstate1 t ▸ hmove.2.1) hE
    have hexcept := hsound.except (t := t)
      fun _ => ⟨((hsound.tasks t).member q hq).2.1, .inr (hstate1 t ▸ hmove.2.1)⟩
    have hsound1 : Sound P s1 Q (insert t E) :=
      hexcept.modify_index (fun _ => ⟨rfl, rfl, rfl, rfl, rfl⟩)
        fun hE => absurd (mem_insert _ _) hE
    obtain ⟨s2, hdeq, hsound2, habs, hr⟩ := hsound1.dequeue (mem_insert _ _)
    have hsound3 := hsound2.enqueue habs hidle
      ((hsound2.tasks _).excepted hidle (mem_insert _ _)).1
      ((state_eq hr.body t).trans hmove.2.1)
    have hcur : s2.currentTask = s1.currentTask := currentTask_eq hr.body
    refine ⟨_, (if_neg hsame).trans ((if_pos hmove).trans (bind_of_some hdeq _)),
      h.keep hsound3 (enqueueTask_currentTask.trans hcur) ?_⟩
    rw [state_eq (enqueueTask_body _ _), state_eq hr.body, hstate1]
  · refine ⟨s1, (if_neg hsame).trans (if_neg hmove), h.keep (Q := Q) ?_ rfl (hstate1 _)⟩
    refine hsound.modify_index (fun _ => ⟨rfl, rfl, rfl, rfl, rfl⟩) fun hE hready => ?_
    by_contra hne
    refine hmove ⟨Ne.symm ?_, (hstate1 t).trans hready, ?_⟩
    · rw [hs1, task_modify, if_pos rfl]
      exact hne
    · -- a ready task that runs is an exception
      intro hcur
      rw [hcur] at hE hready
      cases (h.current.resolve_left hE).symm.trans hready

/-! ## The timer interrupt -/

theorem Poised.modify_other (h : Poised P E s)
    (hf : ∀ task, (f task).linkage = task.linkage) : Poised P E (s.modify t f) := by
  obtain ⟨Q, hsound⟩ := h.sound
  exact h.keep (hsound.modify_other hf) rfl
    (read_modify Task.state (fun task => congrArg (·.2.2.2.1) (hf task)) ..)

theorem Poised.congr (h : Poised P E s) (htask : s'.task = s.task) (hhead : s'.rqHead = s.rqHead)
    (htail : s'.rqTail = s.rqTail) (hcur : s'.currentTask = s.currentTask) : Poised P E s' := by
  obtain ⟨Q, hsound⟩ := h.sound
  exact h.keep (hsound.congr htask hhead htail) hcur (by rw [htask])

theorem Poised.ageTask (h : Poised P E s) (i : Fin maxTasks) :
    ∃ s', s.ageTask i = some s' ∧ Poised P E s' := by
  unfold Sched.ageTask
  simp only
  split
  · exact h.taskSetMlfqLevel (.inl (slot_ne_idle i)) _
  · exact ⟨s, rfl, h⟩

theorem Poised.taskMlfqAging (h : Poised P E s) :
    ∃ s', s.taskMlfqAging = some s' ∧ Poised P E s' := by
  unfold Sched.taskMlfqAging
  generalize finRange maxTasks = slots
  induction slots generalizing s with
  | nil => exact ⟨s, rfl, h⟩
  | cons i slots ih =>
    obtain ⟨s1, hage, hpoised⟩ := h.ageTask i
    obtain ⟨s2, hrest, hpoised2⟩ := ih hpoised
    refine ⟨s2, ?_, hpoised2⟩
    rw [foldlM_cons, bind_of_some hage, hrest]

theorem Poised.taskQuotaPeriodReset (h : Poised P E s) : Poised P E s.taskQuotaPeriodReset := by
  obtain ⟨Q, hsound⟩ := h.sound
  have hreset : Sound P s.taskQuotaPeriodReset Q E := by
    refine hsound.retask (fun p => ?_) rfl rfl
    cases p with
    | idle => rfl
    | slot i =>
      unfold Sched.taskQuotaPeriodReset
      simp only
      split <;> rfl
  refine h.keep hreset rfl ?_
  cases s.currentTask with
  | idle => rfl
  | slot i =>
    unfold Sched.taskQuotaPeriodReset
    simp only
    split <;> rfl

/-- A task that neither runs nor is ready is in no queue. -/
theorem Sound.absent (h : Sound P s Q E) (hidle : t ≠ .idle)
    (hrunning : (s.task t).state ≠ .running) (hready : (s.task t).state ≠ .ready) :
    t ∉ E ∧ ∀ q, t ∉ Q q := by
  have hE : t ∉ E := fun hE => ((h.tasks t).excepted hidle hE).2.elim hrunning hready
  exact ⟨hE, fun q hq => hready ((h.tasks t).ready q hq hE).1⟩

section

variable (h : Poised P E s)
include h

/-- A slot that is in no queue gets a task that counts as running. -/
theorem Poised.renew (hsound : Sound P s Q E) {i : Fin maxTasks} (habs : ∀ q, .slot i ∉ Q q)
    (hE : .slot i ∉ E) (hawake : (s.task (.slot i)).state ≠ .waiting) (task : Task)
    (htask : task.state = .running) :
    Sound P (s.modify (.slot i) fun _ => task) Q E ∧ s.currentTask ≠ .slot i ∧
      ∀ n, ¬P (.slot i) n := by
  have hparked : ∀ n, ¬P (.slot i) n := fun n hn => hawake ((hsound.tasks _).parked n hn).1
  refine ⟨hsound.queues.sound_modify (fun p _ => hsound.tasks p) (fun q hq => absurd hq (habs q))
    ⟨fun q hq => absurd hq (habs q), fun q hq => absurd hq (habs q),
      fun _ hs => (nomatch htask.symm.trans hs), fun _ hc => absurd hc hE,
      fun hs => (nomatch htask.symm.trans hs), fun hi => absurd hi (slot_ne_idle i),
      fun n hn => absurd hn (hparked n)⟩, fun hcur => ?_, hparked⟩
  rcases h.current with hmem | hwait
  · exact hE (hcur ▸ hmem)
  · exact hawake (hcur ▸ hwait)

/-- Freeing the slot of a task that has ended keeps the invariant. -/
theorem Poised.freeTaskSlot (hstate : (s.task t).state = .exited) :
    Poised P E (s.freeTaskSlot t) := by
  cases t with
  | idle => exact h
  | slot i =>
    obtain ⟨Q, hsound⟩ := h.sound
    obtain ⟨hE, habs⟩ := hsound.absent (slot_ne_idle i) (by rw [hstate]; nofun)
      (by rw [hstate]; nofun)
    obtain ⟨hfree, hne, -⟩ := h.renew hsound habs hE (by rw [hstate]; nofun) Task.zero rfl
    change Poised P E (s.modify (.slot i) fun _ => Task.zero)
    refine h.keep hfree rfl ?_
    rw [task_modify, if_neg hne]

theorem Poised.watchdogTick : Poised P E s.watchdogTick :=
  watchdogTick_rule (P := Poised P E) (fun _ _ _ h => h.congr rfl rfl rfl rfl)
    (fun _ _ hexited h => h.freeTaskSlot hexited) h

theorem Poised.watchdogRegister (path : CStr) (tier : Tier) (initialTask : Option TaskPtr) :
    Poised P E (s.watchdogRegister path tier initialTask).2 :=
  watchdogRegister_rule (P := Poised P E) (fun _ _ h => h.congr rfl rfl rfl rfl)
    (fun _ _ h => h.modify_other fun _ => rfl) h path tier initialTask

theorem Poised.chargeQuota : Poised P E s.chargeQuota :=
  h.modify_other fun task => by split <;> rfl

theorem Poised.demote : ∃ s', s.demote = some s' ∧ Poised P E s' := by
  unfold Sched.demote
  simp only
  split
  · have hcount : Poised P E (s.modify s.currentTask fun task =>
        { task with mlfqContTicks := task.mlfqContTicks + 1 }) :=
      h.modify_other fun _ => rfl
    split
    · obtain ⟨s1, hlevel, hpoised⟩ :=
        hcount.taskSetMlfqLevel (t := s.currentTask) (.inr rfl) _
      exact ⟨_, bind_of_some hlevel _,
        hpoised.modify_other fun _ => rfl⟩
    · exact ⟨_, rfl, hcount⟩
  · exact ⟨s, rfl, h⟩

theorem Poised.periodic : ∃ s', s.periodic = some s' ∧ Poised P E s' := by
  unfold Sched.periodic
  have hwd : Poised P E (if s.tickCount % 50 = 0 then s.watchdogTick else s) := by
    split
    · exact h.watchdogTick
    · exact h
  simp only
  generalize (if s.tickCount % 50 = 0 then s.watchdogTick else s) = s1 at hwd
  obtain ⟨s2, hage, hpoised⟩ : ∃ s2,
      (if s1.tickCount % mlfqAgingTicks = 0 then s1.taskMlfqAging else some s1) = some s2 ∧
        Poised P E s2 := by
    split
    · exact hwd.taskMlfqAging
    · exact ⟨s1, rfl, hwd⟩
  refine ⟨_, bind_of_some hage _, ?_⟩
  split
  · exact hpoised.taskQuotaPeriodReset
  · exact hpoised

/-- **`pit_handler`** up to `schedule`, if the running task is not to die. -/
theorem Poised.pitHandler (hkill : (s.task s.currentTask).killPending = false) :
    ∃ s', s.pitHandler = some s' ∧ Poised P E s' := by
  have htick : Poised P E { s with tickCount := (s.tickCount + 1) % 2 ^ 32 } :=
    h.congr rfl rfl rfl rfl
  unfold Sched.pitHandler
  simp only
  rw [if_neg (by rw [hkill]; exact Bool.false_ne_true)]
  obtain ⟨s2, hdemote, hpoised⟩ := htick.chargeQuota.demote
  obtain ⟨s3, hperiodic, hpoised⟩ := hpoised.periodic
  exact ⟨s3, (bind_of_some hdemote _).trans hperiodic, hpoised⟩

end

/-! ## Creating, ending, yielding, waiting -/

/-- A task in no queue becomes ready and is enqueued. -/
theorem Sound.start (h : Sound P s Q E) (habs : ∀ q, t ∉ Q q) (hidle : t ≠ .idle)
    (hparked : ∀ n, ¬P t n) (hready : (f (s.task t)).state = .ready)
    (hinUse : (f (s.task t)).inUse) : ∃ Q', Sound P ((s.modify t f).enqueueTask t) Q' E := by
  have hmodify : Sound P (s.modify t f) Q (insert t E) :=
    h.queues.sound_modify (fun p hp => (TaskOk.insert_iff hp).mpr (h.tasks p))
      (fun q hq => absurd hq (habs q))
      (TaskOk.of_absent habs (mem_insert t E) (fun _ => ⟨hinUse, .inr hready⟩)
        (fun _ => ⟨hidle, hinUse⟩) (fun hi => absurd hi hidle) hparked)
  refine ⟨_, hmodify.enqueue habs hidle ?_ ?_⟩
  · rw [task_modify, if_pos rfl]
    exact hinUse
  · rw [task_modify, if_pos rfl]
    exact hready

theorem createAndEnqueue_currentTask (s : Sched) (fields : Task) :
    (s.createAndEnqueue fields).currentTask = s.currentTask := by
  unfold createAndEnqueue
  rcases hslot : s.createTaskSlot with ⟨i, s1⟩
  cases i with
  | none => exact congrArg currentTask (createTaskSlot_none hslot)
  | some i => exact enqueueTask_currentTask.trans (newSlot_of_createTaskSlot hslot).currentTask

/-- `create_task_slot` and `enqueue_task` keep the invariant. -/
theorem Poised.createAndEnqueue (h : Poised P E s) (fields : Task) :
    Poised P E (s.createAndEnqueue fields) := by
  obtain ⟨Q, hsound⟩ := h.sound
  unfold Sched.createAndEnqueue Sched.createTaskSlot
  cases hfind : (finRange maxTasks).find? fun i => !(s.task (.slot i)).inUse with
  | none => exact h
  | some i =>
    have hunused : (s.task (.slot i)).inUse = false := by simpa using find?_some hfind
    have habs : ∀ q, TaskPtr.slot i ∉ Q q := fun q hq => by
      have := ((hsound.tasks _).member q hq).2.1
      rw [hunused] at this
      cases this
    have hE : TaskPtr.slot i ∉ E := fun hE => by
      have := ((hsound.tasks _).excepted (slot_ne_idle i) hE).1
      rw [hunused] at this
      cases this
    have hawake : (s.task (.slot i)).state ≠ .waiting := fun hwait =>
      nomatch hunused.symm.trans ((hsound.tasks _).waiting hwait).2
    -- the new slot counts as running until it is enqueued
    obtain ⟨hslot, hne, hparked⟩ := h.renew hsound habs hE hawake
      { Task.zero with inUse := true, curQueue := none, pid := s.pidCounter } rfl
    have hcount : Sound P { (s.modify (.slot i) fun _ =>
        { Task.zero with inUse := true, curQueue := none, pid := s.pidCounter }) with
          pidCounter := s.pidCounter + 1 } Q E := hslot.congr rfl rfl rfl
    obtain ⟨Q', hstart⟩ := hcount.start (f := fun slot => { fields with
      pid := slot.pid, inUse := slot.inUse, next := slot.next, curQueue := slot.curQueue,
      state := .ready }) habs (slot_ne_idle i) hparked rfl (by simp [task_modify])
    refine h.keep hstart enqueueTask_currentTask ?_
    rw [state_eq (enqueueTask_body _ _), task_modify, if_neg hne]
    exact congrArg Task.state (by rw [task_modify, if_neg hne])

theorem Sound.wakeParent (h : Sound nobody s Q E) (parent : Option TaskPtr) :
    ∃ Q', Sound nobody (s.wakeParent parent) Q' E := by
  cases parent with
  | none => exact ⟨Q, h⟩
  | some p =>
    unfold Sched.wakeParent
    simp only
    split
    · rename_i hwait
      obtain ⟨hidle, hinUse⟩ := (h.tasks p).waiting hwait
      obtain ⟨-, habs⟩ := h.absent hidle (by rw [hwait]; nofun) (by rw [hwait]; nofun)
      refine h.start habs hidle (fun _ hn => hn) ?_ ?_
      · split <;> rfl
      · split <;> exact hinUse
    · exact ⟨Q, h⟩

/-- A task that has ended is not woken. -/
theorem wakeParent_exited (hstate : (s.task t).state = .exited) (parent : Option TaskPtr) :
    ((s.wakeParent parent).task t).state = .exited ∧
      (s.wakeParent parent).currentTask = s.currentTask := by
  cases parent with
  | none => exact ⟨hstate, rfl⟩
  | some p =>
    unfold wakeParent
    simp only
    split
    · rename_i hwait
      refine ⟨?_, enqueueTask_currentTask⟩
      rw [state_eq (enqueueTask_body _ _), task_modify, if_neg (by rintro rfl; simp_all)]
      exact hstate
    · exact ⟨hstate, rfl⟩

/-- Orphaning the children leaves all that matters alone. -/
theorem Sound.orphanChildren (h : Sound P s Q E) : Sound P (s.orphanChildren t) Q E := by
  refine h.retask (fun p => ?_) rfl rfl
  cases p with
  | idle => rfl
  | slot i =>
    unfold Sched.orphanChildren
    simp only
    split <;> rfl

theorem orphanChildren_state (p : TaskPtr) :
    ((s.orphanChildren t).task p).state = (s.task p).state := by
  cases p with
  | idle => rfl
  | slot i =>
    simp only [orphanChildren]
    split <;> rfl

theorem clearInherited_state (p : TaskPtr) :
    ((s.clearInherited t).task p).state = (s.task p).state :=
  read_modify Task.state (fun _ => by rfl) s t p

theorem leaveAddressSpace_state (p : TaskPtr) :
    ((s.leaveAddressSpace t).task p).state = (s.task p).state :=
  read_modify Task.state (f := fun task => { task with pagesCharged := 0 }) (fun _ => rfl) s t p

/-- **`task_exit`** leaves the running task ended and in no queue. -/
theorem Stable.exitCurrent (h : Stable nobody s) (hidle : s.currentTask ≠ .idle) (code : ℤ) :
    ∃ s', s.exitCurrent code = some s' ∧ Entered nobody s' := by
  obtain ⟨Q, hsound⟩ := h
  obtain ⟨s1, hdeq, hsound1, habs, hr⟩ := hsound.dequeue rfl
  have hcur : s1.currentTask = s.currentTask := currentTask_eq hr.body
  rw [← insert_empty_eq] at hsound1
  set t := s.currentTask
  set s2 := s1.modify t fun task => { task with state := .exited, exitCode := code } with hs2
  have hsound2 : Sound nobody s2 (without Q t) ∅ :=
    hsound1.stop habs hidle (.inr rfl) rfl (notMem_empty _)
  have hstate2 : (s2.task t).state = .exited := by
    rw [hs2, task_modify, if_pos rfl]
  obtain ⟨hstate3, hcur3⟩ := wakeParent_exited hstate2 (s2.task t).parent
  obtain ⟨Q3, hsound3⟩ := hsound2.wakeParent (s2.task t).parent
  set s3 := s2.wakeParent (s2.task t).parent with hs3
  have hsound4 : Sound nobody ((s3.orphanChildren t).clearInherited t) Q3 ∅ :=
    hsound3.orphanChildren.modify_other fun _ => rfl
  have hsound5 : Sound nobody
      (((s3.orphanChildren t).clearInherited t).leaveAddressSpace t) Q3 ∅ :=
    (hsound4.modify_other (t := t) (f := fun task => { task with pagesCharged := 0 })
      fun _ => rfl).congr rfl rfl rfl
  have hcur5 : (((s3.orphanChildren t).clearInherited t).leaveAddressSpace t).currentTask = t :=
    hcur3.trans hcur
  refine ⟨((s3.orphanChildren t).clearInherited t).leaveAddressSpace t, ?_,
    .inr ⟨Q3, hsound5, hcur5 ▸ hidle, .inr ?_⟩⟩
  · exact bind_of_some hdeq _
  · rw [hcur5, leaveAddressSpace_state, clearInherited_state, orphanChildren_state, hstate3]

/-- **`yield`** leaves the running task ready. -/
theorem Stable.yieldCurrent (h : Stable P s) : ∃ s', s.yieldCurrent = some s' ∧ Stable P s' := by
  have hready : ∀ {s1 : Sched}, Poised P {s.currentTask} s1 →
      Stable P (s1.setState s.currentTask .ready) := by
    rintro s1 h1
    obtain ⟨Q, hsound⟩ := h1.sound
    exact (hsound.setState rfl (.inr rfl)).stable (singleton_subset_iff.mp h1.only).symm
  unfold Sched.yieldCurrent
  simp only
  split
  · have hcount : Poised P {s.currentTask}
        (s.modify s.currentTask fun task => { task with mlfqContTicks := 0 }) :=
      h.poised.modify_other fun _ => rfl
    split
    · obtain ⟨s1, hlevel, hpoised⟩ := hcount.taskSetMlfqLevel (t := s.currentTask) (.inr rfl) 0
      exact ⟨_, bind_of_some hlevel _, hready hpoised⟩
    · exact ⟨_, rfl, hready hcount⟩
  · exact ⟨_, rfl, hready h.poised⟩

/-- **`sys_wait`** leaves the running task waiting and in no queue. -/
theorem Stable.waitCurrent (h : Stable nobody s) (hidle : s.currentTask ≠ .idle) :
    ∃ s', s.waitCurrent = some s' ∧ Entered nobody s' := by
  obtain ⟨Q, hsound⟩ := h
  rw [← insert_empty_eq] at hsound
  have ht := hsound.tasks s.currentTask
  set t := s.currentTask
  -- for a moment the task waits and is still queued
  have hqueues : Queues (s.setState t .waiting) Q := by
    refine ⟨fun q => (hsound.queues.fifo q).congr fun p _ => ?_, hsound.queues.disjoint⟩
    exact read_modify Task.next (fun _ => by rfl) s t p
  have htask : (s.setState t .waiting).task t = { s.task t with state := .waiting } := by
    rw [setState, task_modify, if_pos rfl]
  obtain ⟨s', hdeq, hQ, hr⟩ := hqueues.dequeue (t := t) fun q hq => by
    unfold curQueueOf
    rw [htask]
    exact (ht.member q hq).2.2
  have habs := hqueues.not_mem_without (t := t)
  have hstate : (s'.task t).state = .waiting := by
    rw [state_eq hr.body, htask]
  have hcur : s'.currentTask = (s.setState t .waiting).currentTask := currentTask_eq hr.body
  replace hcur : s'.currentTask = t := hcur
  have hsound' : Sound nobody s' (without Q t) ∅ := by
    refine ⟨hQ, fun p => ?_⟩
    by_cases hp : p = t
    · rw [hp]
      refine ⟨fun q hq => absurd hq (habs q), fun q hq => absurd hq (habs q), fun _ hs => ?_,
        fun _ hc => absurd hc (notMem_empty _), fun _ => ⟨hidle, ?_⟩, fun hi => absurd hi hidle,
        fun _ hn => hn.elim⟩
      · rw [hstate] at hs
        cases hs
      · rw [inUse_eq hr.body, htask]
        exact (ht.excepted hidle (mem_insert _ _)).1
    · refine hr.taskOk ?_ fun _ hn => hn.elim
      rw [setState, task_modify, if_neg hp]
      exact ((TaskOk.insert_iff hp).mp (hsound.tasks p)).congr_mem (mem_without hp)
  exact ⟨s', hdeq, .inr ⟨_, hsound', hcur ▸ hidle, .inl (hcur ▸ hstate)⟩⟩

theorem Stable.setKillPending (h : Stable P s) (hidle : t ≠ .idle) (b : Bool) :
    Stable P (s.modify t fun task => { task with killPending := b }) := by
  obtain ⟨Q, hsound⟩ := h
  exact ⟨Q, hsound.queues.sound_modify (fun p _ => hsound.tasks p) (fun _ _ => rfl)
    ((hsound.tasks t).congr (fun _ _ => rfl) rfl rfl rfl (fun _ _ => rfl) fun hi =>
      absurd hi hidle)⟩

/-- **`pit_handler`** up to `schedule`. -/
theorem Stable.pitHandler (h : Stable nobody s) :
    ∃ s', s.pitHandler = some s' ∧ Entered nobody s' := by
  cases hkill : (s.task s.currentTask).killPending with
  | true =>
    have hidle : s.currentTask ≠ .idle := fun hi => by
      obtain ⟨Q, hsound⟩ := h
      rw [(hsound.tasks _).idle hi] at hkill
      cases hkill
    have htick : Poised nobody {s.currentTask} { s with tickCount := (s.tickCount + 1) % 2 ^ 32 } :=
      h.poised.congr rfl rfl rfl rfl
    unfold Sched.pitHandler
    simp only
    rw [if_pos hkill]
    exact (htick.stable.setKillPending hidle false).exitCurrent hidle (-9)
  | false =>
    obtain ⟨s', hpit, hpoised⟩ := h.poised.pitHandler hkill
    exact ⟨s', hpit, hpoised.entered⟩

/-! ## The system -/

theorem stable_taskInit (pageDirectory : ℕ) : Stable nobody (taskInit pageDirectory) := by
  refine ⟨fun _ => [], ⟨fun _ => ⟨rfl, rfl⟩, fun _ _ _ h => absurd h not_mem_nil⟩, fun t => ?_⟩
  cases t with
  | idle => exact ⟨fun _ h => absurd h not_mem_nil, fun _ h => absurd h not_mem_nil,
      fun hi => absurd rfl hi, fun hi => absurd rfl hi, nofun, fun _ => rfl, nofun⟩
  | slot i => exact ⟨fun _ h => absurd h not_mem_nil, fun _ h => absurd h not_mem_nil,
      nofun, fun _ hc => (nomatch hc), nofun, nofun, nofun⟩

/-- Every event up to its call of `schedule` returns. -/
theorem Stable.before (h : Stable nobody s) (e : SchedEvent) (hallowed : schedSystem.allowed s e) :
    ∃ s', e.before s = some s' ∧ Entered nobody s' ∧ (e.schedules = false → Stable nobody s') := by
  have stable : ∀ {s' : Sched} {e : SchedEvent}, e.before s = some s' → Stable nobody s' →
      ∃ s', e.before s = some s' ∧ Entered nobody s' ∧ (e.schedules = false → Stable nobody s') :=
    fun {s'} _ hs hstable => ⟨s', hs, .inl hstable, fun _ => hstable⟩
  cases e with
  | create fields => exact stable rfl (h.poised.createAndEnqueue fields).stable
  | tick =>
    obtain ⟨s', hs, hentered⟩ := h.pitHandler
    exact ⟨s', hs, hentered, nofun⟩
  | yield =>
    obtain ⟨s', hs, hstable⟩ := h.yieldCurrent
    exact stable hs hstable
  | wait =>
    obtain ⟨s', hs, hentered⟩ := h.waitCurrent hallowed
    exact ⟨s', hs, hentered, nofun⟩
  | exit code =>
    obtain ⟨s', hs, hentered⟩ := h.exitCurrent hallowed code
    exact ⟨s', hs, hentered, nofun⟩
  | setTier i tier =>
    obtain ⟨s', hs, hpoised⟩ := h.poised.taskSetTier (.inl (slot_ne_idle i)) tier
    exact stable hs hpoised.stable
  | setLevel i level =>
    obtain ⟨s', hs, hpoised⟩ := h.poised.taskSetMlfqLevel (.inl (slot_ne_idle i)) level
    exact stable hs hpoised.stable
  | schedule => exact stable rfl h
  | kill i => exact stable rfl (h.setKillPending (slot_ne_idle i) true)
  | register path tier i => exact stable rfl (h.poised.watchdogRegister path tier _).stable
  | reap i => exact stable rfl (h.poised.freeTaskSlot hallowed).stable

end Sched

/-- The event does not call `schedule` in a state in which that enqueues a queued task. -/
def schedulesSafely (s : Sched) (e : SchedEvent) : Prop :=
  e.schedules → ∀ s', e.before s = some s' → ¬ s'.doubleEnqueue

/-- Every step that schedules safely returns and keeps the invariant. -/
theorem Sched.Stable.step {s : Sched} (h : Stable nobody s) {e : SchedEvent}
    (hallowed : schedSystem.allowed s e) (hsafe : schedulesSafely s e) :
    ∃ s', schedSystem.step s e = some s' ∧ Stable nobody s' := by
  obtain ⟨s1, hbefore, hentered, hstable⟩ := h.before e hallowed
  have heval : schedSystem.step s e = if e.schedules then s1.schedule else some s1 :=
    bind_of_some hbefore _
  rw [heval]
  cases hs : e.schedules with
  | true => exact hentered.stable_schedule (hsafe hs s1 hbefore)
  | false => exact ⟨s1, rfl, hstable hs⟩

/-- The run queues are well formed; `Q` are their tasks in order. -/
structure WellQueued (s : Sched) (Q : Fin nrQueues → List TaskPtr) : Prop where
  /-- each queue is a null-terminated list that ends at its tail pointer -/
  lists : ∀ q, Fifo s.nextOf (s.rqHead q) (s.rqTail q) (Q q)
  /-- no task is in a queue twice -/
  nodup : ∀ q, (Q q).Nodup
  /-- no task is in two queues -/
  disjoint : ∀ q q' t, t ∈ Q q → t ∈ Q q' → q = q'
  /-- a queued task other than the running one is in the queue it records, that of its index -/
  recorded : ∀ q, ∀ t ∈ Q q, t ≠ s.currentTask →
    (s.task t).curQueue = some q ∧ taskQidx (s.task t) = q
  /-- no queued task waits or has ended -/
  awake : ∀ q, ∀ t ∈ Q q, (s.task t).state ≠ .waiting ∧ (s.task t).state ≠ .exited
  /-- a ready task other than the running one is in exactly one queue -/
  queued : ∀ i, (s.task (.slot i)).inUse → (s.task (.slot i)).state = .ready →
    .slot i ≠ s.currentTask → ∃! q, .slot i ∈ Q q

/-- The invariant gives well-formed queues. -/
theorem Sched.Stable.wellQueued {P : TaskPtr → Option TaskPtr → Prop} {s : Sched}
    (h : Stable P s) : ∃ Q, WellQueued s Q := by
  obtain ⟨Q, hsound⟩ := h
  refine ⟨Q, hsound.queues.fifo, fun q => (hsound.queues.fifo q).nodup, hsound.queues.disjoint,
    fun q t ht hne => ⟨((hsound.tasks t).member q ht).2.2, ((hsound.tasks t).ready q ht hne).2⟩,
    fun q t ht => ?_, fun i _ hready hne => ?_⟩
  · have hawake : (s.task t).state = .running ∨ (s.task t).state = .ready := by
      by_cases hE : t ∈ ({s.currentTask} : Set TaskPtr)
      · exact ((hsound.tasks t).excepted ((hsound.tasks t).member q ht).1 hE).2
      · exact .inr ((hsound.tasks t).ready q ht hE).1
    rcases hawake with hs | hs <;> rw [hs] <;> exact ⟨nofun, nofun⟩
  · obtain ⟨q, hq⟩ := (hsound.tasks (.slot i)).covered (slot_ne_idle i) hready hne
    exact ⟨q, hq, fun q' hq' => hsound.queues.disjoint q' q _ hq' hq⟩

/-- A task at the end of a queue that links to itself: not a list. -/
theorem not_wellQueued_of_self_link {s : Sched} {t : TaskPtr} {q : Fin nrQueues}
    (hnext : s.nextOf t = some t) (htail : s.rqTail q = some t) : ¬ ∃ Q, WellQueued s Q := by
  rintro ⟨Q, h⟩
  have hmem : t ∈ Q q := by
    have := (h.lists q).tail
    rw [htail] at this
    exact mem_of_mem_getLast? this.symm
  exact (h.lists q).chain.next_ne_self hmem hnext

/-- **The condition is exact**: a call of `schedule` with `doubleEnqueue` breaks the queues. -/
theorem Sched.Stable.doubleEnqueue_breaks {s : Sched} (h : Stable nobody s)
    (hdouble : s.doubleEnqueue) : ∃ s', s.schedule = some s' ∧ ¬ ∃ Q, WellQueued s' Q := by
  obtain ⟨Q, hsound⟩ := h
  obtain ⟨hidle, hawake, htick, hcrowded⟩ := hdouble
  rw [hsound.queues.queueOf_eq] at hcrowded
  obtain ⟨s2, cand, hd, hsliced, habs, hpeek⟩ := hsound.slice
  have hcrowded2 := (Crowded.congr hd.quotaDone (hd.taskQidx _)).mpr hcrowded
  -- what `peek_next_task` sees is in a lower queue
  have hstay : ¬ cand.any fun cand =>
      taskQidx (s2.task cand) < taskQidx (s.task s.currentTask) := by
    rcases exists_firstReady s2 (without Q s.currentTask) (finRange 5) with
      hnone | ⟨q, pre, t, post, hfirst⟩
    · cases (hd.queues.peekFrom_none hnone).symm.trans hpeek
      simp
    · cases (hd.queues.peekFrom hfirst).symm.trans hpeek
      have ht : t ∈ without Q s.currentTask q := by
        rw [hfirst.2.1]
        simp
      have hne : t ∉ ({s.currentTask} : Set TaskPtr) := fun he =>
        habs q (mem_singleton_iff.mp he ▸ ht)
      rw [Option.any_some, decide_eq_true_eq, ((hsliced.tasks t).ready q ht hne).2]
      intro hlt
      have := hcrowded2.2.1 q (by rw [hd.taskQidx]; exact hlt.le) t ht
      rw [hfirst.2.2.2] at this
      cases this
  obtain ⟨s', hexpire, hnext, htail⟩ := hsliced.expire_crowded habs hidle hcrowded2
  refine ⟨s', ?_, not_wellQueued_of_self_link hnext htail⟩
  have heval := hd.running hpeek
  rw [if_neg hstay, hd.slice, if_pos (sliceLeft_nonpos.mpr htick), ← hd.taskQidx, hexpire] at heval
  rw [schedule, if_neg hidle]
  rcases hawake with hstate | hstate <;> simpa only [hstate] using heval

theorem Sched.Stable.of_reachable {s : Sched}
    (h : (schedSystem.restrict schedulesSafely).Reachable s) : Stable nobody s := by
  refine h.invariant ?_ ?_
  · rintro s ⟨pageDirectory, rfl⟩
    exact stable_taskInit pageDirectory
  · rintro s e s' hs ⟨hallowed, hsafe⟩ hstep
    obtain ⟨s1, hstep1, hs1⟩ := hs.step hallowed hsafe
    cases hstep1.symm.trans hstep
    exact hs1

/-- A system task without quota for more than ten ticks, and one system and one user task. -/
def crowdedRun : List SchedEvent :=
  [.create { Task.zero with tier := .system, cpuQuota := 1 }, .schedule] ++
    List.replicate 10 .tick ++
    [.create { Task.zero with tier := .system }, .create { Task.zero with tier := .user },
      .schedule] ++
    List.replicate 2 .tick

/-- An event that schedules safely, of those that are always allowed. -/
def safeEvent (s : Sched) : SchedEvent → Bool
  | .wait | .exit _ | .reap _ => false
  | e => (e.before s).all fun s' => !decide s'.doubleEnqueue

theorem safeEvent_allowed (s : Sched) (e : SchedEvent) (h : safeEvent s e = true) :
    (schedSystem.restrict schedulesSafely).allowed s e := by
  have hsafe : ∀ s', e.before s = some s' →
      (e.before s).all (fun s' => !decide s'.doubleEnqueue) = true → ¬ s'.doubleEnqueue := by
    intro s' hs' hall
    simpa [hs'] using hall
  cases e with
  | wait | exit | reap => cases h
  | _ => exact ⟨trivial, fun _ s' hs' => hsafe s' hs' h⟩

/-- **Run-queue well-formedness.** In every run that calls `schedule` only where it does not
enqueue a queued task, the queues are well formed in every state, and every step returns. -/
theorem runQueues_wellFormed {s : Sched} (h : (schedSystem.restrict schedulesSafely).Reachable s) :
    (∃ Q, WellQueued s Q) ∧
      ∀ e, schedSystem.allowed s e → schedulesSafely s e →
        ∃ s', schedSystem.step s e = some s' := by
  have hstable := Sched.Stable.of_reachable h
  refine ⟨hstable.wellQueued, fun e hallowed hsafe => ?_⟩
  obtain ⟨s', hstep, -⟩ := hstable.step hallowed hsafe
  exact ⟨s', hstep⟩

/-- One task runs, and two are queued. -/
theorem runQueues_wellFormed_crowded :
    ∃ s, schedSystem.run (Sched.taskInit 0) crowdedRun.dropLast = some s ∧
      s.currentTask = .slot 1 ∧ s.queueOf 1 = [.slot 0] ∧ s.queueOf 2 = [.slot 2] ∧
      ∃ Q, WellQueued s Q := by
  obtain ⟨s, hrun, hcur, h1, h2⟩ : ∃ s ∈ (schedSystem.restrict schedulesSafely).checkedRun
      safeEvent (taskInit 0) crowdedRun.dropLast,
      s.currentTask = .slot 1 ∧ s.queueOf 1 = [.slot 0] ∧ s.queueOf 2 = [.slot 2] := by
    decide +kernel
  refine ⟨s, ?_, hcur, h1, h2, (runQueues_wellFormed
    (System.reachable_checkedRun safeEvent_allowed (.init ⟨0, rfl⟩) hrun)).1⟩
  rw [← System.run_restrict]
  exact (System.allowedRun_of_checkedRun safeEvent_allowed hrun).2

/-- **What breaks the queues.** In a state that such runs reach, `schedule` returns with well-formed
queues if and only if it does not enqueue a queued task. -/
theorem schedule_wellQueued_iff {s : Sched}
    (h : (schedSystem.restrict schedulesSafely).Reachable s) :
    (∃ s', s.schedule = some s' ∧ ∃ Q, WellQueued s' Q) ↔ ¬ s.doubleEnqueue := by
  have hstable := Sched.Stable.of_reachable h
  refine ⟨?_, fun hsafe => ?_⟩
  · rintro ⟨s', hs', hQ⟩ hdouble
    obtain ⟨s1, hs1, hbroken⟩ := hstable.doubleEnqueue_breaks hdouble
    cases hs1.symm.trans hs'
    exact hbroken hQ
  · obtain ⟨s', hs', hstable'⟩ := Entered.stable_schedule (.inl hstable) hsafe
    exact ⟨s', hs', hstable'.wellQueued⟩

/-- Two ticks before the end of `crowdedRun` a call is safe, with three tasks queued; one tick
before the end it breaks the queues. -/
theorem schedule_wellQueued_iff_crowded :
    (∃ s, (schedSystem.restrict schedulesSafely).Reachable s ∧
      s.queueOf 1 = [.slot 0, .slot 1] ∧ s.queueOf 2 = [.slot 2] ∧
        ∃ s', s.schedule = some s' ∧ ∃ Q, WellQueued s' Q) ∧
      ∃ s, (schedSystem.restrict schedulesSafely).Reachable s ∧
        s.queueOf 1 = [.slot 0] ∧ s.queueOf 2 = [.slot 2] ∧
          ¬ ∃ s', s.schedule = some s' ∧ ∃ Q, WellQueued s' Q := by
  obtain ⟨s, hrun, h1, h2, hsafe⟩ : ∃ s ∈ (schedSystem.restrict schedulesSafely).checkedRun
      safeEvent (taskInit 0) crowdedRun.dropLast.dropLast,
      s.queueOf 1 = [.slot 0, .slot 1] ∧ s.queueOf 2 = [.slot 2] ∧ ¬ s.doubleEnqueue := by
    decide +kernel
  obtain ⟨t, hrun', h1', h2', hdouble⟩ : ∃ s ∈ (schedSystem.restrict schedulesSafely).checkedRun
      safeEvent (taskInit 0) crowdedRun.dropLast,
      s.queueOf 1 = [.slot 0] ∧ s.queueOf 2 = [.slot 2] ∧ s.doubleEnqueue := by
    decide +kernel
  have hs := System.reachable_checkedRun safeEvent_allowed (.init ⟨0, rfl⟩) hrun
  have ht := System.reachable_checkedRun safeEvent_allowed (.init ⟨0, rfl⟩) hrun'
  exact ⟨⟨s, hs, h1, h2, (schedule_wellQueued_iff hs).mpr hsafe⟩,
    t, ht, h1', h2', fun hok => (schedule_wellQueued_iff ht).mp hok hdouble⟩

/-- **A task is enqueued twice**: after `crowdedRun` the second system task links to itself. -/
theorem runQueues_self_link :
    ∃ s, schedSystem.Reachable s ∧ schedSystem.run (Sched.taskInit 0) crowdedRun = some s ∧
      s.nextOf (.slot 1) = some (.slot 1) ∧ ¬ ∃ Q, WellQueued s Q := by
  obtain ⟨s, hrun, hnext, htail⟩ : ∃ s, schedSystem.run (taskInit 0) crowdedRun = some s ∧
      s.nextOf (.slot 1) = some (.slot 1) ∧ s.rqTail 1 = some (.slot 1) := by decide +kernel
  have hallowed : schedSystem.AllowedRun (taskInit 0) crowdedRun := by
    refine System.allowedRun_of_forall (fun e he s => ?_) _
    simp only [crowdedRun, mem_append, mem_cons, not_mem_nil, or_false,
      mem_replicate] at he
    rcases he with ((((rfl | rfl) | ⟨-, rfl⟩) | rfl | rfl | rfl) | ⟨-, rfl⟩) <;> trivial
  exact ⟨s, System.reachable_run (.init ⟨0, rfl⟩) hallowed hrun, hrun, hnext,
    not_wellQueued_of_self_link hnext htail⟩

end PokuOS
