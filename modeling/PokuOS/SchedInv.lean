import PokuOS.RunQueue

/-!
# The scheduler's invariant

Between two events every queued task is ready and in the queue of its index, and every ready
task is queued — except the running task, which may be queued or not, and whose tier and
level may have changed since. Inside `schedule` the exception moves: it is lifted when the
running task is put back (`Sound.requeue`) and made again for the task that is picked
(`Sound.pick`). `Sound P s Q E` is the invariant with the exceptions `E`.

`TaskOk` is what it says of a single task; an operation on one task has to show only that
task `TaskOk` again.

Wait queues are linked through the same `next` fields as the run queues. The invariant also says
which tasks are parked outside with which links (`P`): a parked task waits, so it is in no run
queue, and what is done to these stops there.
-/

namespace PokuOS

open Function List Set

theorem slot_ne_idle (i : Fin maxTasks) : TaskPtr.slot i ≠ .idle := nofun

/-- The fields of a task that the queues depend on. -/
def Task.linkage (task : Task) :=
  (task.next, task.curQueue, task.inUse, task.state, taskQidx task, task.killPending)

/-- Nobody is parked. -/
def nobody : TaskPtr → Option TaskPtr → Prop := fun _ _ => False

/-- One task and the queues; `E` are the exceptions and `P` says who is parked with which link. -/
structure TaskOk (P : TaskPtr → Option TaskPtr → Prop) (Q : Fin nrQueues → List TaskPtr)
    (E : Set TaskPtr) (t : TaskPtr) (task : Task) : Prop where
  /-- a queued task is one of the table, in use, and knows its queue -/
  member : ∀ q, t ∈ Q q → t ≠ .idle ∧ task.inUse ∧ task.curQueue = some q
  /-- it is ready and in the queue of its index -/
  ready : ∀ q, t ∈ Q q → t ∉ E → task.state = .ready ∧ taskQidx task = q
  /-- a ready task is queued -/
  covered : t ≠ .idle → task.state = .ready → t ∉ E → ∃ q, t ∈ Q q
  /-- an exception is in use, and neither waits nor has it ended -/
  excepted : t ≠ .idle → t ∈ E → task.inUse ∧ (task.state = .running ∨ task.state = .ready)
  /-- only tasks of the table wait -/
  waiting : task.state = .waiting → t ≠ .idle ∧ task.inUse
  /-- the idle task is never to die -/
  idle : t = .idle → task.killPending = false
  /-- a parked task waits with its link -/
  parked : ∀ n, P t n → task.state = .waiting ∧ task.next = n

namespace TaskOk

variable {P : TaskPtr → Option TaskPtr → Prop} {Q Q' : Fin nrQueues → List TaskPtr}
  {E : Set TaskPtr} {t : TaskPtr} {task task' : Task}

variable (h : TaskOk P Q E t task)
include h

/-- A task that waits is in no queue. -/
theorem unqueued (hwait : task.state = .waiting) (q : Fin nrQueues) : t ∉ Q q := by
  intro hq
  by_cases hE : t ∈ E
  · rcases (h.excepted (h.member q hq).1 hE).2 with hs | hs <;> exact nomatch hwait.symm.trans hs
  · cases hwait.symm.trans (h.ready q hq hE).1

theorem not_parked (hE : t ∈ E) (n : Option TaskPtr) : ¬P t n := by
  intro hn
  have hwait := (h.parked n hn).1
  rcases (h.excepted (h.waiting hwait).1 hE).2 with hs | hs <;> exact nomatch hwait.symm.trans hs

theorem congr (hnext : ∀ n, P t n → task'.next = task.next)
    (hinUse : task'.inUse = task.inUse) (hcur : task'.curQueue = task.curQueue)
    (hstate : task'.state = task.state)
    (hidx : t ∉ E → (∃ q, t ∈ Q q) → taskQidx task' = taskQidx task)
    (hkill : t = .idle → task'.killPending = task.killPending) : TaskOk P Q E t task' := by
  refine ⟨fun q hq => ?_, fun q hq hE => ?_, fun hi hs hE => ?_, fun hi hE => ?_, fun hs => ?_,
    fun hi => ?_, fun n hn => ?_⟩
  · rw [hinUse, hcur]
    exact h.member q hq
  · rw [hstate, hidx hE ⟨q, hq⟩]
    exact h.ready q hq hE
  · exact h.covered hi (hstate ▸ hs) hE
  · rw [hinUse, hstate]
    exact h.excepted hi hE
  · rw [hinUse]
    exact h.waiting (hstate ▸ hs)
  · rw [hkill hi]
    exact h.idle hi
  · rw [hstate, hnext n hn]
    exact h.parked n hn

/-- The queues of the other tasks do not matter. -/
theorem congr_mem (hmem : ∀ q, t ∈ Q' q ↔ t ∈ Q q) : TaskOk P Q' E t task := by
  refine ⟨fun q hq => h.member q ((hmem q).mp hq), fun q hq => h.ready q ((hmem q).mp hq),
    fun hi hs hE => ?_, h.excepted, h.waiting, h.idle, h.parked⟩
  obtain ⟨q, hq⟩ := h.covered hi hs hE
  exact ⟨q, (hmem q).mpr hq⟩

omit h in
/-- An exception for another task does not matter. -/
theorem insert_iff {c : TaskPtr} (hne : t ≠ c) :
    TaskOk P Q (insert c E) t task ↔ TaskOk P Q E t task := by
  have hE : t ∈ insert c E ↔ t ∈ E := by simp [hne]
  constructor
  · intro h
    exact ⟨h.member, fun q hq ht => h.ready q hq (hE.not.mpr ht),
      fun hi hs ht => h.covered hi hs (hE.not.mpr ht), fun hi ht => h.excepted hi (hE.mpr ht),
      h.waiting, h.idle, h.parked⟩
  · intro h
    exact ⟨h.member, fun q hq ht => h.ready q hq (hE.not.mp ht),
      fun hi hs ht => h.covered hi hs (hE.not.mp ht), fun hi ht => h.excepted hi (hE.mp ht),
      h.waiting, h.idle, h.parked⟩

/-- An exception is made for a task that runs or is ready. -/
theorem except (ht : t ≠ .idle → task.inUse ∧ (task.state = .running ∨ task.state = .ready)) :
    TaskOk P Q (insert t E) t task :=
  ⟨h.member, fun _ _ hc => absurd (mem_insert t E) hc,
    fun _ _ hc => absurd (mem_insert t E) hc, fun hi _ => ht hi, h.waiting, h.idle, h.parked⟩

omit h in
theorem of_absent (habs : ∀ q, t ∉ Q q) (hE : t ∈ E)
    (ht : t ≠ .idle → task.inUse ∧ (task.state = .running ∨ task.state = .ready))
    (hwait : task.state = .waiting → t ≠ .idle ∧ task.inUse)
    (hidle : t = .idle → task.killPending = false) (hparked : ∀ n, ¬P t n) : TaskOk P Q E t task :=
  ⟨fun q hq => absurd hq (habs q), fun q hq => absurd hq (habs q), fun _ _ hc => absurd hE hc,
    fun hi _ => ht hi, hwait, hidle, fun n hn => absurd hn (hparked n)⟩

end TaskOk

namespace Sched

/-- The invariant with the exceptions `E` and the parked tasks `P`. -/
structure Sound (P : TaskPtr → Option TaskPtr → Prop) (s : Sched)
    (Q : Fin nrQueues → List TaskPtr) (E : Set TaskPtr) : Prop where
  /-- the links are those of the lists -/
  queues : Queues s Q
  /-- every task is as it should be -/
  tasks : ∀ t, TaskOk P Q E t (s.task t)

variable {P : TaskPtr → Option TaskPtr → Prop} {s s' : Sched}
  {Q Q' : Fin nrQueues → List TaskPtr} {E : Set TaskPtr} {t : TaskPtr} {q : Fin nrQueues}

/-- **Whoever waits can be parked**, with the link it has. -/
theorem Sound.park {P' : TaskPtr → Option TaskPtr → Prop} (h : Sound P s Q E)
    (hP : ∀ t n, P' t n → (s.task t).state = .waiting ∧ s.nextOf t = n) : Sound P' s Q E := by
  refine ⟨h.queues, fun p => ?_⟩
  have hp := h.tasks p
  exact ⟨hp.member, hp.ready, hp.covered, hp.excepted, hp.waiting, hp.idle, hP p⟩

/-- Links do not matter to the state of a task beyond its `cur_queue`, if it is not parked. -/
theorem Moved.taskOk (hr : Moved Q s s') (h : TaskOk P Q' E t (s.task t))
    (hout : ∀ n, P t n → ∀ q, t ∉ Q q) : TaskOk P Q' E t (s'.task t) :=
  h.congr (fun n hn => hr.outside t (hout n hn)) (inUse_eq hr.body t) (hr.curQueueOf t)
    (state_eq hr.body t) (fun _ _ => taskQidx_eq hr.body t)
    (fun _ => task_read Task.killPending (fun _ => rfl) hr.body t)

/-- A parked task is in no run queue. -/
theorem Sound.outside (h : Sound P s Q E) (n : Option TaskPtr) (hn : P t n) (q : Fin nrQueues) :
    t ∉ Q q :=
  (h.tasks t).unqueued ((h.tasks t).parked n hn).1 q

/-- An exception is made for a task that runs or is ready. -/
theorem Sound.except (h : Sound P s Q E) (ht : t ≠ .idle →
    (s.task t).inUse ∧ ((s.task t).state = .running ∨ (s.task t).state = .ready)) :
    Sound P s Q (insert t E) := by
  refine ⟨h.queues, fun p => ?_⟩
  by_cases hp : p = t
  · subst hp
    exact (h.tasks p).except ht
  · exact (TaskOk.insert_iff hp).mpr (h.tasks p)

/-- No exception is needed for the idle task. -/
theorem Sound.lift_idle (h : Sound P s Q {.idle}) : Sound P s Q ∅ := by
  rw [← insert_empty_eq] at h
  refine ⟨h.queues, fun p => ?_⟩
  by_cases hp : p = .idle
  · subst hp
    have hp := h.tasks .idle
    exact ⟨hp.member, fun q hq => absurd rfl (hp.member q hq).1, fun hi => absurd rfl hi,
      fun hi => absurd rfl hi, hp.waiting, hp.idle, hp.parked⟩
  · exact (TaskOk.insert_iff hp).mp (h.tasks p)

/-- A change to the tasks that keeps the links of queued ones and leaves every task as it
should be. -/
theorem Queues.sound (h : Queues s Q) (hnext : ∀ q, ∀ p ∈ Q q, s'.nextOf p = s.nextOf p)
    (hhead : s'.rqHead = s.rqHead) (htail : s'.rqTail = s.rqTail)
    (htasks : ∀ p, TaskOk P Q E p (s'.task p)) : Sound P s' Q E := by
  refine ⟨⟨fun q => ?_, h.disjoint⟩, htasks⟩
  rw [hhead, htail]
  exact (h.fifo q).congr (hnext q)

theorem Sound.retask (h : Sound P s Q E) (htask : ∀ p, (s'.task p).linkage = (s.task p).linkage)
    (hhead : s'.rqHead = s.rqHead) (htail : s'.rqTail = s.rqTail) : Sound P s' Q E := by
  simp only [Task.linkage, Prod.mk.injEq] at htask
  refine h.queues.sound (fun q p _ => (htask p).1) hhead htail fun p => ?_
  obtain ⟨hnext, hcur, hinUse, hstate, hidx, hkill⟩ := htask p
  exact (h.tasks p).congr (fun _ _ => hnext) hinUse hcur hstate (fun _ _ => hidx) fun _ => hkill

theorem Sound.congr (h : Sound P s Q E) (htask : s'.task = s.task) (hhead : s'.rqHead = s.rqHead)
    (htail : s'.rqTail = s.rqTail) : Sound P s' Q E :=
  h.retask (fun p => by rw [htask]) hhead htail

variable {f : Task → Task}

/-- A change to one task: the links of queued tasks stay, and the task has to be as it should
be. -/
theorem Queues.sound_modify (h : Queues s Q) (hothers : ∀ p, p ≠ t → TaskOk P Q E p (s.task p))
    (hnext : ∀ q, t ∈ Q q → (f (s.task t)).next = (s.task t).next)
    (ht : TaskOk P Q E t (f (s.task t))) : Sound P (s.modify t f) Q E := by
  refine h.sound (fun q p hp => ?_) (rqHead_modify s t f) (rqTail_modify s t f) fun p => ?_
  · unfold nextOf
    rw [task_modify]
    split
    · rename_i hpt
      subst hpt
      exact hnext q hp
    · rfl
  · rw [task_modify]
    split
    · rename_i hp
      rw [hp]
      exact ht
    · rename_i hp
      exact hothers p hp

theorem Sound.modify_other (h : Sound P s Q E)
    (hf : ∀ task, (f task).linkage = task.linkage) : Sound P (s.modify t f) Q E :=
  h.retask (read_modify Task.linkage hf s t) rfl rfl

theorem Sound.setState (h : Sound P s Q E) (hE : t ∈ E) {state : TaskState}
    (hstate : state = .running ∨ state = .ready) : Sound P (s.setState t state) Q E := by
  have ht := h.tasks t
  refine h.queues.sound_modify (fun p _ => h.tasks p) (fun _ _ => rfl)
    ⟨ht.member, fun _ _ hc => absurd hE hc, fun _ _ hc => absurd hE hc,
      fun hi _ => ⟨(ht.excepted hi hE).1, hstate⟩, fun hs => ?_, ht.idle,
      fun n hn => absurd hn (ht.not_parked hE n)⟩
  rcases hstate with rfl | rfl <;> cases hs

/-- An excepted task in no queue stops: no exception any more. -/
theorem Sound.stop (h : Sound P s Q (insert t E)) (habs : ∀ q, t ∉ Q q) (hidle : t ≠ .idle)
    (hstate : (f (s.task t)).state = .waiting ∨ (f (s.task t)).state = .exited)
    (hinUse : (f (s.task t)).inUse = (s.task t).inUse) (hE : t ∉ E) :
    Sound P (s.modify t f) Q E := by
  refine h.queues.sound_modify (fun p hp => (TaskOk.insert_iff hp).mp (h.tasks p))
    (fun q hq => absurd hq (habs q))
    ⟨fun q hq => absurd hq (habs q), fun q hq => absurd hq (habs q), fun _ hs _ => ?_,
      fun _ hc => absurd hc hE, fun _ => ⟨hidle, ?_⟩, fun hi => absurd hi hidle,
      fun n hn => absurd hn ((h.tasks t).not_parked (mem_insert t E) n)⟩
  · rw [hs] at hstate
    rcases hstate with hstate | hstate <;> cases hstate
  · rw [hinUse]
    exact ((h.tasks t).excepted hidle (mem_insert t E)).1

/-! ## Queue operations -/

variable {p : TaskPtr}

theorem mem_without (hne : p ≠ t) (q : Fin nrQueues) : p ∈ without Q t q ↔ p ∈ Q q :=
  mem_erase_of_ne hne

theorem Queues.not_mem_without (h : Queues s Q) (q : Fin nrQueues) : t ∉ without Q t q :=
  (h.fifo q).nodup.not_mem_erase

theorem mem_update_append (hne : p ≠ t) (q' : Fin nrQueues) :
    p ∈ update Q q (Q q ++ [t]) q' ↔ p ∈ Q q' := by
  by_cases hq : q' = q
  · rw [hq, update_self]
    simp [hne]
  · rw [update_of_ne hq]

theorem Sound.dequeue (h : Sound P s Q E) (hE : t ∈ E) :
    ∃ s', s.dequeueTask t = some s' ∧ Sound P s' (without Q t) E ∧ (∀ q, t ∉ without Q t q) ∧
      Moved Q s s' := by
  obtain ⟨s', hdeq, hQ, hr⟩ := h.queues.dequeue fun q hq => ((h.tasks t).member q hq).2.2
  have hnot : ∀ q, t ∉ without Q t q := h.queues.not_mem_without
  refine ⟨s', hdeq, ⟨hQ, fun p => hr.taskOk ?_ h.outside⟩, hnot, hr⟩
  by_cases hp : p = t
  · subst hp
    have hp := h.tasks p
    exact TaskOk.of_absent hnot hE (fun hi => hp.excepted hi hE) hp.waiting hp.idle
      (hp.not_parked hE)
  · exact (h.tasks p).congr_mem (mem_without hp)

/-- `enqueue_task` of a ready task that is in no queue: it is no exception any more. -/
theorem Sound.enqueue (h : Sound P s Q (insert t E)) (habs : ∀ q, t ∉ Q q) (hidle : t ≠ .idle)
    (hinUse : (s.task t).inUse) (hready : (s.task t).state = .ready) :
    Sound P (s.enqueueTask t)
      (update Q (taskQidx (s.task t)) (Q (taskQidx (s.task t)) ++ [t])) E := by
  refine ⟨h.queues.enqueue habs, fun p => ?_⟩
  have hbody := s.enqueueTask_body t
  by_cases hp : p = t
  · subst hp
    have hcur : ((s.enqueueTask p).task p).curQueue = some (taskQidx (s.task p)) := by
      have := s.enqueueTask_curQueueOf p p
      rwa [if_pos rfl] at this
    have hmem : ∀ q, p ∈ update Q (taskQidx (s.task p))
        (Q (taskQidx (s.task p)) ++ [p]) q → taskQidx (s.task p) = q := by
      intro q hq
      by_contra hne
      rw [update_of_ne (Ne.symm hne)] at hq
      exact habs q hq
    refine ⟨fun q hq => ?_, fun q hq _ => ?_, fun _ _ _ => ?_, fun _ _ => ?_, fun hs => ?_,
      fun hi => absurd hi hidle,
      fun n hn => absurd hn ((h.tasks p).not_parked (mem_insert p E) n)⟩
    · rw [inUse_eq hbody, hcur, hmem q hq]
      exact ⟨hidle, hinUse, rfl⟩
    · rw [state_eq hbody, taskQidx_eq hbody]
      exact ⟨hready, hmem q hq⟩
    · refine ⟨taskQidx (s.task p), ?_⟩
      rw [update_self]
      simp
    · rw [inUse_eq hbody, state_eq hbody]
      exact ⟨hinUse, .inr hready⟩
    · rw [state_eq hbody, hready] at hs
      cases hs
  · have hcur : ((s.enqueueTask t).task p).curQueue = (s.task p).curQueue := by
      have := s.enqueueTask_curQueueOf t p
      rwa [if_neg hp] at this
    exact (((TaskOk.insert_iff hp).mp (h.tasks p)).congr_mem (mem_update_append hp)).congr
      (fun n hn => h.queues.nextOf_enqueueTask hp (h.outside n hn)) (inUse_eq hbody p) hcur
        (state_eq hbody p) (fun _ _ => taskQidx_eq hbody p)
      fun _ => task_read Task.killPending (fun _ => rfl) hbody p

variable {pre post : List TaskPtr}

/-- Picking keeps all tasks but the picked one where they are. -/
theorem mem_turn (hq : Q q = pre ++ t :: post) (hne : p ≠ t) (q' : Fin nrQueues) :
    p ∈ update Q q (turn pre t post) q' ↔ p ∈ Q q' := by
  by_cases hq' : q' = q
  · rw [hq', update_self, hq, turn]
    split
    · rename_i hnil
      rw [append_eq_nil_iff] at hnil
      simp [hnil.1, hnil.2, hne]
    · simp [hne, or_comm]
  · rw [update_of_ne hq']

variable {q' : Fin nrQueues}

theorem mem_of_mem_turn (hq : Q q = pre ++ t :: post)
    (hp : p ∈ update Q q (turn pre t post) q') : p ∈ Q q' := by
  by_cases hne : p = t
  · subst hne
    by_cases hq' : q' = q
    · rw [hq', hq]
      simp
    · rwa [update_of_ne hq'] at hp
  · exact (mem_turn hq hne q').mp hp

/-- **Picking**: the first task with quota left becomes an exception. -/
theorem Sound.pick (h : Sound P s Q E) {qs : List (Fin nrQueues)}
    (hfirst : FirstReady s Q qs q pre t post) :
    ∃ s', s.pickFrom qs = some (some t, s') ∧
      Sound P s' (update Q q (turn pre t post)) (insert t E) ∧ Moved Q s s' := by
  obtain ⟨s', hpick, hQ, hr⟩ := h.queues.pickFrom hfirst
  have hq := hfirst.2.1
  have hmem : t ∈ Q q := by
    rw [hq]
    simp
  refine ⟨s', hpick, ⟨hQ, fun p => hr.taskOk ?_ h.outside⟩, hr⟩
  by_cases hp : p = t
  · subst hp
    have ht := h.tasks p
    refine ⟨fun q' hq' => ht.member q' (mem_of_mem_turn hq hq'),
      fun _ _ hc => absurd (mem_insert p E) hc, fun _ _ hc => absurd (mem_insert p E) hc,
      fun hi _ => ?_, ht.waiting, ht.idle, ht.parked⟩
    by_cases hE : p ∈ E
    · exact ht.excepted hi hE
    · exact ⟨(ht.member q hmem).2.1, .inr (ht.ready q hmem hE).1⟩
  · exact (TaskOk.insert_iff hp).mpr ((h.tasks p).congr_mem (mem_turn hq hp))

/-! ## `schedule` -/

theorem Sound.setTaskTimeslice (h : Sound P s Q E) : Sound P (s.setTaskTimeslice t) Q E :=
  h.modify_other fun _ => rfl

/-- What holds between two events: the running task is the only exception. -/
def Stable (P : TaskPtr → Option TaskPtr → Prop) (s : Sched) : Prop :=
  ∃ Q, Sound P s Q {s.currentTask}

/-- **`switch_to_task`** of the excepted task. -/
theorem Sound.switchToTask (h : Sound P s Q {t}) : Stable P (s.switchToTask t) := by
  have hrun : Sound P ((s.setState t .running).setTaskTimeslice t) Q {t} :=
    (h.setState rfl (.inl rfl)).setTaskTimeslice
  exact ⟨Q, hrun.congr rfl rfl rfl⟩

/-- With all ready tasks queued, a task is picked and switched to. -/
theorem Sound.pickOrIdle (h : Sound P s Q ∅) :
    ∃ t s', s.pickOrIdle = some (t, s') ∧ Stable P (s'.switchToTask t) := by
  rcases exists_firstReady s Q (finRange 5) with hnone | ⟨q, pre, t, post, hfirst⟩
  · have hidle := h.except (t := .idle) fun hi => absurd rfl hi
    rw [insert_empty_eq] at hidle
    exact ⟨.idle, s, bind_of_some (h.queues.pickFrom_none hnone) _, hidle.switchToTask⟩
  · obtain ⟨s', hpick, hsound, -⟩ := h.pick hfirst
    rw [insert_empty_eq] at hsound
    exact ⟨t, s', bind_of_some hpick _, hsound.switchToTask⟩

theorem Sound.requeue (h : Sound P s Q {t}) (habs : ∀ q, t ∉ Q q) (hidle : t ≠ .idle) :
    Sound P (s.requeue t)
      (update Q (taskQidx (s.task t)) (Q (taskQidx (s.task t)) ++ [t])) ∅ := by
  have htask : (s.setState t .ready).task t = { s.task t with state := .ready } := by
    rw [Sched.setState, task_modify, if_pos rfl]
  have hset := h.setState rfl (.inr rfl)
  rw [← insert_empty_eq] at hset
  have henq := hset.enqueue habs hidle
    (by rw [htask]; exact ((h.tasks t).excepted hidle rfl).1) (by rw [htask])
  rw [htask] at henq
  exact henq

/-! ### The second `enqueue_task`

When its slice is used up, `prev` is put back and may be picked again. `schedule` takes it
that `prev` has then left its queue and puts it back once more when a lower queue has
something to run. But `pick_next_task` takes a task off its queue only when it is alone there;
among tasks without quota it stays. -/

/-- The tasks of a queue, in order. -/
def queueOf (s : Sched) (q : Fin nrQueues) : List TaskPtr :=
  follow s.nextOf queueFuel (s.rqHead q)

theorem Queues.queueOf_eq (h : Queues s Q) : s.queueOf = Q := by
  funext q
  exact (h.fifo q).chain.follow_eq (length_lt_queueFuel (h.fifo q).nodup).le

/-- Among the other tasks `Q`, `prev` has quota left but the ones in its queue, of which there
are some, and those in better queues do not; a lower queue has something to run. -/
def Crowded (s : Sched) (Q : Fin nrQueues → List TaskPtr) (prev : TaskPtr) : Prop :=
  (s.task prev).quotaDone = false ∧
    (∀ q ≤ taskQidx (s.task prev), AllDone s (Q q)) ∧
    Q (taskQidx (s.task prev)) ≠ [] ∧
    ∃ q, taskQidx (s.task prev) < q ∧ ¬ AllDone s (Q q)

instance (s : Sched) (Q : Fin nrQueues → List TaskPtr) (prev : TaskPtr) :
    Decidable (Crowded s Q prev) := inferInstanceAs (Decidable (_ ∧ _ ∧ _ ∧ _))

/-- `schedule`, called in this state, enqueues a queued task. -/
def doubleEnqueue (s : Sched) : Prop :=
  s.currentTask ≠ .idle ∧
    ((s.task s.currentTask).state = .running ∨ (s.task s.currentTask).state = .ready) ∧
    (s.task s.currentTask).timeslice ≤ 1 ∧
    Crowded s (without s.queueOf s.currentTask) s.currentTask

instance (s : Sched) : Decidable (doubleEnqueue s) := inferInstanceAs (Decidable (_ ∧ _ ∧ _ ∧ _))

/-- Queues before `q` in the order of the loop of `pick_next_task`. -/
theorem mem_before_of_lt {before after : List (Fin 5)} {q q' : Fin 5}
    (h : finRange 5 = before ++ q :: after) (hlt : q' < q) : q' ∈ before := by
  have hsorted := pairwise_lt_finRange 5
  have hmem := mem_finRange q'
  rw [h] at hsorted hmem
  rcases mem_append.mp hmem with hb | hb
  · exact hb
  · have hafter := (pairwise_cons.mp (pairwise_append.mp hsorted).2.1).1
    rcases mem_cons.mp hb with rfl | ha
    · exact absurd hlt (lt_irrefl _)
    · exact absurd hlt (lt_asymm (hafter q' ha))

/-- A task at the end of its queue is picked when all other tasks of this queue and of the better
ones are without quota, and then it stays where it is unless it is alone. -/
theorem firstReady_last {prev : TaskPtr} (hQ : Queues s (update Q q (Q q ++ [prev])))
    (habs : ∀ q, prev ∉ Q q)
    (h : FirstReady s (update Q q (Q q ++ [prev])) (finRange 5) q' pre prev post) :
    q' = q ∧ pre = Q q ∧ post = [] ∧ ∀ q1 ≤ q, AllDone s (Q q1) := by
  obtain ⟨⟨before, after, hfin, hbefore⟩, hsplit, hpre, -⟩ := h
  have hq' : q' = q := by
    by_contra hne
    rw [update_of_ne hne] at hsplit
    exact habs q' (by rw [hsplit]; simp)
  subst hq'
  rw [update_self] at hsplit
  have hnd := (hQ.fifo q').nodup
  rw [update_self] at hnd
  obtain ⟨rfl, rfl⟩ : pre = Q q' ∧ post = [] := by
    have hnot : prev ∉ pre := fun hp => by
      rw [hsplit] at hnd
      exact (nodup_append.mp hnd).2.2 prev hp prev mem_cons_self rfl
    rcases eq_nil_or_concat' post with rfl | ⟨l, c, rfl⟩
    · exact ⟨(append_inj_left' hsplit rfl).symm, rfl⟩
    · have hl : Q q' = pre ++ prev :: l := by
        rw [← cons_append, ← append_assoc] at hsplit
        exact append_inj_left' hsplit rfl
      exact absurd (by rw [hl]; simp) (habs q')
  refine ⟨rfl, rfl, rfl, fun q1 hle => ?_⟩
  rcases lt_or_eq_of_le hle with hlt | rfl
  · have := hbefore q1 (mem_before_of_lt hfin hlt)
    rwa [update_of_ne hlt.ne] at this
  · exact hpre

/-- The queues `pick_next_lower` looks at. -/
theorem mem_lower :
    q' ∈ (finRange 5).filter (fun q1 => decide ((q : ℕ) + 1 ≤ q1.val)) ↔ q < q' := by
  simp only [mem_filter, mem_finRange, true_and, decide_eq_true_eq]
  exact Nat.succ_le_iff

theorem FirstReady.lower {pre post : List TaskPtr} (h : FirstReady s Q
    ((finRange 5).filter fun q1 => decide ((q : ℕ) + 1 ≤ q1.val)) q' pre t post) : q < q' := by
  obtain ⟨⟨before, after, hqs, -⟩, -⟩ := h
  exact mem_lower.mp (by rw [hqs]; simp)

/-- The queues after the slice of `prev` is used up and `prev` is picked again. -/
def again (Q : Fin nrQueues → List TaskPtr) (q : Fin nrQueues) (prev : TaskPtr) :
    Fin nrQueues → List TaskPtr :=
  update (update Q q (Q q ++ [prev])) q (turn (Q q) prev [])

theorem again_eq {prev : TaskPtr} :
    again Q q prev = update Q q (if Q q = [] then [] else Q q ++ [prev]) := by
  unfold again turn
  rw [update_idem, nil_append]

section Expire

variable {prev : TaskPtr}

/-- Reading a task after `prev` was put back, its state and queue fields apart. -/
theorem requeue_read {β : Type*} (f : Task → β) (hf : ∀ task, f task.body = f task)
    (hstate : ∀ task, f { task with state := .ready } = f task) (p : TaskPtr) :
    f ((s.requeue prev).task p) = f (s.task p) := by
  unfold Sched.requeue
  rw [task_read f hf (enqueueTask_body _ _)]
  exact read_modify f hstate s prev p

theorem requeue_state : ((s.requeue prev).task prev).state = .ready := by
  unfold Sched.requeue
  rw [state_eq (enqueueTask_body _ _), Sched.setState, task_modify, if_pos rfl]

theorem requeue_currentTask : (s.requeue prev).currentTask = s.currentTask := by
  have := currentTask_eq (enqueueTask_body (s.setState prev .ready) prev)
  exact this

/-- Exhausted tasks are the same after `prev` was put back. -/
theorem allDone_requeue {l : List TaskPtr} : AllDone (s.requeue prev) l ↔ AllDone s l := by
  have hread : ∀ p, ((s.requeue prev).task p).quotaDone = (s.task p).quotaDone :=
    requeue_read Task.quotaDone (fun _ => rfl) fun _ => rfl
  unfold AllDone
  simp only [hread]

/-- `prev` is put back and the next task is picked: another one, or `prev` again because no
other task of its queue and of the better ones has quota left. -/
theorem Sound.pick_again (h : Sound P s Q {prev}) (habs : ∀ q, prev ∉ Q q)
    (hidle : prev ≠ .idle) :
    (∃ t s', (s.requeue prev).pickOrIdle = some (t, s') ∧ t ≠ prev ∧
      Stable P (s'.switchToTask t)) ∨
    ∃ s', (s.requeue prev).pickOrIdle = some (prev, s') ∧
      Sound P s' (again Q (taskQidx (s.task prev)) prev) {prev} ∧
      s'.body = (s.requeue prev).body ∧ (s.task prev).quotaDone = false ∧
      ∀ q ≤ taskQidx (s.task prev), AllDone s (Q q) := by
  have hback := h.requeue habs hidle
  rcases exists_firstReady (s.requeue prev) _ (finRange 5) with
    hnone | ⟨q, pre, t, post, hfirst⟩
  · have hrest := hback.except (t := .idle) fun hi => absurd rfl hi
    rw [insert_empty_eq] at hrest
    exact .inl ⟨.idle, s.requeue prev, bind_of_some (hback.queues.pickFrom_none hnone) _,
      hidle.symm, hrest.switchToTask⟩
  · obtain ⟨s', hpick, hsound, hr⟩ := hback.pick hfirst
    rw [insert_empty_eq] at hsound
    by_cases ht : t = prev
    · subst ht
      obtain ⟨rfl, rfl, rfl, hall⟩ := firstReady_last hback.queues habs hfirst
      refine .inr ⟨s', bind_of_some hpick _, hsound, hr.body, ?_, fun q hq => ?_⟩
      · rw [← requeue_read Task.quotaDone (fun _ => rfl) fun _ => rfl]
        exact hfirst.2.2.2
      · exact allDone_requeue.mp (hall q hq)
    · exact .inl ⟨t, s', bind_of_some hpick _, ht, hsound.switchToTask⟩

/-- `prev` is picked again: a lower queue may have one slice. -/
theorem expire_again {s1 s2 : Sched} {lower : Option TaskPtr}
    (hpick : (s.requeue prev).pickOrIdle = some (prev, s1))
    (hlower : s1.pickNextLower (q + 1) = some (lower, s2)) :
    s.expire prev q = match lower with
      | some lower => some ((s2.enqueueTask prev).switchToTask lower)
      | none => some (s2.setTaskTimeslice prev) := by
  rw [Sched.expire, bind_of_some hpick]
  refine (if_pos rfl).trans ?_
  rw [bind_of_some hlower]
  cases lower <;> rfl

/-- `prev`, alone in its queue, has left it when it was picked again. -/
theorem not_mem_again (habs : ∀ q, prev ∉ Q q) (hnil : Q q = []) (q' : Fin nrQueues) :
    prev ∉ again Q q prev q' := by
  intro hp
  rw [again_eq, if_pos hnil] at hp
  by_cases hq' : q' = q
  · rw [hq', update_self] at hp
    cases hp
  · rw [update_of_ne hq'] at hp
    exact habs q' hp

/-- **The end of a time slice** keeps the invariant, unless `prev` is `Crowded`. -/
theorem Sound.expire (h : Sound P s Q {prev}) (habs : ∀ q, prev ∉ Q q)
    (hidle : prev ≠ .idle) (hcur : s.currentTask = prev) (hno : ¬ Crowded s Q prev) :
    ∃ s', s.expire prev (taskQidx (s.task prev)) = some s' ∧ Stable P s' := by
  rcases h.pick_again habs hidle with
    ⟨t, s1, hpick, ht, hstable⟩ | ⟨s1, hpick, hsound, hbody, hquota, hall⟩
  · refine ⟨_, ?_, hstable⟩
    rw [Sched.expire, bind_of_some hpick]
    exact if_neg ht
  have hstate1 : (s1.task prev).state = .ready := by
    rw [state_eq hbody, requeue_state]
  -- `prev` again: now a lower queue may have one slice
  rcases exists_firstReady s1 (again Q (taskQidx (s.task prev)) prev)
      ((finRange 5).filter fun q => decide ((taskQidx (s.task prev) : ℕ) + 1 ≤ q.val)) with
    hnone | ⟨q, pre, t, post, hfirst⟩
  · have hcur1 : s1.currentTask = prev := by
      rw [currentTask_eq hbody, requeue_currentTask, hcur]
    exact ⟨s1.setTaskTimeslice prev, expire_again hpick (hsound.queues.pickFrom_none hnone), _,
      hcur1 ▸ hsound.setTaskTimeslice⟩
  have hlt := hfirst.lower
  have hq := hfirst.2.1
  have hnil : Q (taskQidx (s.task prev)) = [] := by
    by_contra hne
    refine hno ⟨hquota, hall, hne, q, hlt, fun hdone => ?_⟩
    have ht : t ∈ Q q := by
      rw [again_eq, update_of_ne hlt.ne'] at hq
      rw [hq]
      simp
    have : ((s.requeue prev).task t).quotaDone := allDone_requeue.mpr hdone t ht
    rw [← quotaDone_eq hbody, hfirst.2.2.2] at this
    cases this
  obtain ⟨s2, hlower, hsound2, hr2⟩ := hsound.pick hfirst
  have hinUse2 : (s2.task prev).inUse :=
    ((hsound2.tasks prev).excepted hidle (mem_insert_of_mem t rfl)).1
  rw [pair_comm] at hsound2
  have habs2 : ∀ q', prev ∉ update (again Q (taskQidx (s.task prev)) prev) q
      (turn pre t post) q' := fun q' hp =>
    not_mem_again habs hnil q' (mem_of_mem_turn hq hp)
  have hsound3 := hsound2.enqueue habs2 hidle hinUse2 (by rw [state_eq hr2.body]; exact hstate1)
  exact ⟨_, expire_again hpick hlower, hsound3.switchToTask⟩

theorem nextOf_switchToTask (p : TaskPtr) : (s.switchToTask t).nextOf p = s.nextOf p := by
  have : (s.switchToTask t).nextOf p = ((s.setState t .running).setTaskTimeslice t).nextOf p := rfl
  rw [this]
  unfold nextOf Sched.setTaskTimeslice Sched.setState
  simp only [task_modify]
  split <;> simp_all

/-- Enqueueing the last task of its queue once more: it links to itself. -/
theorem enqueueTask_self_link (htail : s.rqTail (taskQidx (s.task prev)) = some prev) :
    (s.enqueueTask prev).nextOf prev = some prev ∧
      (s.enqueueTask prev).rqTail (taskQidx (s.task prev)) = some prev := by
  rw [enqueueTask_eq, htail]
  constructor
  · rw [nextOf_setTail, nextOf_setNext, if_pos rfl]
  · rw [rqTail_setTail, if_pos rfl]

/-- Put back in its queue, a `Crowded` task is the first one with quota left. -/
theorem Crowded.firstReady (h : Crowded s Q prev) :
    FirstReady (s.requeue prev)
      (update Q (taskQidx (s.task prev)) (Q (taskQidx (s.task prev)) ++ [prev]))
      (finRange 5) (taskQidx (s.task prev)) (Q (taskQidx (s.task prev))) prev [] := by
  obtain ⟨hquota, hall, -⟩ := h
  obtain ⟨before, after, hsplit⟩ := append_of_mem (mem_finRange (taskQidx (s.task prev)))
  refine ⟨⟨before, after, hsplit, fun q hq => ?_⟩, update_self .., ?_, ?_⟩
  · have hlt : q < taskQidx (s.task prev) := by
      have hsorted := pairwise_lt_finRange 5
      rw [hsplit] at hsorted
      exact (pairwise_append.mp hsorted).2.2 q hq _ mem_cons_self
    rw [update_of_ne hlt.ne]
    exact allDone_requeue.mpr (hall q hlt.le)
  · exact allDone_requeue.mpr (hall _ le_rfl)
  · rw [requeue_read Task.quotaDone (fun _ => rfl) fun _ => rfl]
    exact hquota

/-- **At the end of its time slice a `Crowded` task is enqueued twice.** -/
theorem Sound.expire_crowded (h : Sound P s Q {prev}) (habs : ∀ q, prev ∉ Q q)
    (hidle : prev ≠ .idle) (hcrowded : Crowded s Q prev) :
    ∃ s', s.expire prev (taskQidx (s.task prev)) = some s' ∧ s'.nextOf prev = some prev ∧
      s'.rqTail (taskQidx (s.task prev)) = some prev := by
  obtain ⟨s1, hpick, hsound, hr1⟩ := (h.requeue habs hidle).pick hcrowded.firstReady
  obtain ⟨-, -, hne, q, hlt, hnot⟩ := hcrowded
  generalize hpq : taskQidx (s.task prev) = pq at *
  have hagain : ∀ q', pq < q' → again Q pq prev q' = Q q' := fun q' hq' => by
    rw [again_eq, update_of_ne hq'.ne']
  have hpicked : (s.requeue prev).pickOrIdle = some (prev, s1) := bind_of_some hpick _
  -- a lower queue has something to run
  rcases exists_firstReady s1 (again Q pq prev)
      ((finRange 5).filter fun q => decide ((pq : ℕ) + 1 ≤ q.val)) with
    hnone | ⟨q', pre, t, post, hfirst⟩
  · rw [← hagain q hlt] at hnot
    exact absurd (allDone_requeue.mp fun p hp => (quotaDone_eq hr1.body p).symm.trans
      (hnone q (mem_lower.mpr hlt) p hp)) hnot
  have hlt' := hfirst.lower
  obtain ⟨s2, hlower, hsound2, hr2⟩ := hsound.pick hfirst
  have hidx : taskQidx (s2.task prev) = pq := by
    rw [taskQidx_eq hr2.body, taskQidx_eq hr1.body,
      requeue_read taskQidx (fun _ => rfl) fun _ => rfl, hpq]
  have htail : s2.rqTail (taskQidx (s2.task prev)) = some prev := by
    rw [hidx, (hsound2.queues.fifo pq).tail, update_of_ne hlt'.ne, update_self,
      turn, if_neg (by simpa using hne)]
    simp
  obtain ⟨hnext, htail'⟩ := enqueueTask_self_link htail
  refine ⟨(s2.enqueueTask prev).switchToTask t, expire_again hpicked hlower, ?_, ?_⟩
  · rw [nextOf_switchToTask, hnext]
  · rw [← hidx]
    exact htail'

end Expire

end Sched

end PokuOS
