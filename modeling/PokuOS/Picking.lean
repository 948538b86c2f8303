import Mathlib.Data.List.Rotate
import PokuOS.SchedRun

/-!
# The choice of the next task

What `pick_next_task`, `peek_next_task`, `pick_next_lower` and `schedule` choose, against a
description that follows no links: `best`, the first task with quota left in the first queue
that has one.

* The two picks return what a peek over the same queues sees, and only turn the queue they
  picked from (`pick_agrees`).
* `schedule` switches to the best other task when the running one cannot go on or a better
  queue has one, and does not lose the running task (`schedule_selects`).

Only the links matter here: the results are about every state with well-formed queues, also
those in which `schedule` enqueues a queued task (`doubleEnqueue`).
-/

namespace PokuOS

open Function List Option Sched

variable {pre post : List TaskPtr}

namespace Sched

variable {s s' : Sched} {Q : Fin nrQueues → List TaskPtr} {t : TaskPtr} {q : Fin nrQueues}

/-- The best task of the given queues with its queue: **the first one with quota left in the
first queue that has one**. -/
def best (s : Sched) (Q : Fin nrQueues → List TaskPtr) (qs : List (Fin nrQueues)) :
    Option (Fin nrQueues × TaskPtr) :=
  qs.findSome? fun q => ((Q q).find? fun t => !(s.task t).quotaDone).map fun t => (q, t)

theorem AllDone.find_none {l : List TaskPtr} (h : AllDone s l) :
    l.find? (fun t => !(s.task t).quotaDone) = none := by
  rw [find?_eq_none]
  intro t ht
  simp [h t ht]

variable {qs : List (Fin nrQueues)}

theorem best_none (h : ∀ q ∈ qs, AllDone s (Q q)) : best s Q qs = none := by
  rw [best, findSome?_eq_none_iff]
  intro q hq
  rw [(h q hq).find_none]
  rfl

theorem FirstReady.best_eq (h : FirstReady s Q qs q pre t post) : best s Q qs = some (q, t) := by
  obtain ⟨⟨before, after, rfl, hbefore⟩, hq, hpre, ht⟩ := h
  have hnone := best_none hbefore
  rw [best] at hnone ⊢
  rw [findSome?_append, hnone, findSome?_cons, hq, find?_append, hpre.find_none]
  simp [ht]

/-- The best task, or there is none. -/
theorem best_cases (s : Sched) (Q : Fin nrQueues → List TaskPtr) (qs : List (Fin nrQueues)) :
    ((∀ q ∈ qs, AllDone s (Q q)) ∧ best s Q qs = none) ∨
      ∃ q pre t post, FirstReady s Q qs q pre t post ∧ best s Q qs = some (q, t) := by
  rcases exists_firstReady s Q qs with hnone | ⟨q, pre, t, post, hfirst⟩
  · exact .inl ⟨hnone, best_none hnone⟩
  · exact .inr ⟨q, pre, t, post, hfirst, hfirst.best_eq⟩

theorem best_congr (hdone : ∀ p, (s'.task p).quotaDone = (s.task p).quotaDone)
    (qs : List (Fin nrQueues)) : best s' Q qs = best s Q qs := by
  simp only [best, hdone]

theorem FirstReady.mem (h : FirstReady s Q qs q pre t post) : t ∈ Q q := by
  rw [h.2.1]
  simp

/-! ## Picking and peeking -/

/-- What a pick of `cand` makes of the queue `l`. -/
structure Turned (cand : Option TaskPtr) (l l' : List TaskPtr) : Prop where
  /-- a queue it did not pick from is unchanged -/
  others : (∀ t ∈ cand, t ∉ l) → l' = l
  /-- a sole task leaves its queue -/
  sole : ∀ t ∈ cand, l = [t] → l' = []
  /-- one among others goes to its end; **the cyclic order stays** -/
  tail : ∀ t ∈ cand, t ∈ l → l ≠ [t] → l ~r l' ∧ l'.getLast? = some t

/-- A pick from the queues `qs` returned `cand` and left `s'`. -/
structure Picked (s : Sched) (Q : Fin nrQueues → List TaskPtr) (qs : List (Fin nrQueues))
    (cand : Option TaskPtr) (s' : Sched) : Prop where
  /-- `NULL` iff no task of these queues has quota left -/
  null_iff : cand = none ↔ ∀ q ∈ qs, ∀ t ∈ Q q, (s.task t).quotaDone
  /-- the task returned is one of them and has quota left -/
  quota : ∀ t ∈ cand, (∃ q ∈ qs, t ∈ Q q) ∧ (s.task t).quotaDone = false
  /-- the queues are well formed and hold the same tasks, turned -/
  queues : ∃ Q', Queues s' Q' ∧ ∀ q, Turned cand (Q q) (Q' q)
  /-- nothing but links has changed -/
  relinked : Relinked s s'

theorem turned_none (l : List TaskPtr) : Turned none l l := ⟨fun _ => rfl, nofun, nofun⟩

theorem turned_turn (hnd : (pre ++ t :: post).Nodup) :
    Turned (some t) (pre ++ t :: post) (turn pre t post) := by
  have hsole : pre ++ t :: post = [t] ↔ post ++ pre = [] := by
    constructor
    · intro h
      have hlen := congrArg length h
      simp only [length_append, length_cons, length_nil] at hlen
      exact eq_nil_of_length_eq_zero (by rw [length_append]; omega)
    · intro h
      obtain ⟨rfl, rfl⟩ := append_eq_nil_iff.mp h
      rfl
  refine ⟨fun h => absurd (by simp) (h t rfl), ?_, ?_⟩
  · rintro _ ⟨⟩ h
    rw [turn, if_pos (hsole.mp h)]
  · rintro _ ⟨⟩ - h
    rw [turn, if_neg (hsole.not.mp h)]
    refine ⟨?_, by simp⟩
    have hswap : pre ++ t :: post = (pre ++ [t]) ++ post := by simp
    have hback : post ++ pre ++ [t] = post ++ (pre ++ [t]) := by simp
    rw [hswap, hback]
    exact isRotated_append

/-- **A pick returns what a peek sees** and turns one queue. -/
theorem Queues.pick_eq_peek (h : Queues s Q) (qs : List (Fin nrQueues)) :
    ∃ cand s', s.peekFrom qs = some cand ∧ s.pickFrom qs = some (cand, s') ∧
      Picked s Q qs cand s' := by
  rcases exists_firstReady s Q qs with hnone | ⟨q, pre, t, post, hfirst⟩
  · exact ⟨none, s, h.peekFrom_none hnone, h.pickFrom_none hnone,
      ⟨⟨fun _ => hnone, fun _ => rfl⟩, nofun, ⟨Q, h, fun q => turned_none _⟩, .refl s⟩⟩
  · obtain ⟨s', hpick, hQ, hr⟩ := h.pickFrom hfirst
    have hmem : q ∈ qs := by
      obtain ⟨⟨before, after, rfl, -⟩, -⟩ := hfirst
      simp
    refine ⟨some t, s', h.peekFrom hfirst, hpick, ⟨⟨nofun, fun hdone => ?_⟩, ?_, ⟨_, hQ, ?_⟩,
      hr.toRelinked⟩⟩
    · have := hdone q hmem t hfirst.mem
      rw [hfirst.2.2.2] at this
      cases this
    · rintro _ ⟨⟩
      exact ⟨⟨q, hmem, hfirst.mem⟩, hfirst.2.2.2⟩
    · intro q'
      by_cases hq : q' = q
      · subst hq
        rw [update_self, hfirst.2.1]
        exact turned_turn (hfirst.2.1 ▸ (h.fifo q').nodup)
      · rw [update_of_ne hq]
        refine ⟨fun _ => rfl, ?_, ?_⟩
        · rintro _ ⟨⟩ hl
          exact absurd (h.disjoint q' q t (by rw [hl]; simp) hfirst.mem) hq
        · rintro _ ⟨⟩ hl
          exact absurd (h.disjoint q' q t hl hfirst.mem) hq

end Sched

/-- The queues `m … 4`. -/
def queuesFrom (m : ℕ) : List (Fin nrQueues) := (finRange 5).filter fun q => m ≤ q.val

/-- **Picking agrees with peeking and loses nothing.** With well-formed queues
`pick_next_task` returns what `peek_next_task` returns, and `pick_next_lower` the same for its
queues; both leave well-formed queues with the same tasks. -/
theorem pick_agrees {s : Sched} {Q : Fin nrQueues → List TaskPtr} (h : s.Queues Q) :
    (∃ cand s', s.peekNextTask = some cand ∧ s.pickNextTask = some (cand, s') ∧
      s.Picked Q (finRange 5) cand s') ∧
    ∀ m, ∃ cand s', s.peekFrom (queuesFrom m) = some cand ∧
      s.pickNextLower m = some (cand, s') ∧ s.Picked Q (queuesFrom m) cand s' :=
  ⟨h.pick_eq_peek _, fun m => h.pick_eq_peek (queuesFrom m)⟩

/-- Two system tasks, the first one without quota. -/
def pairQueued : Sched :=
  ((Sched.taskInit 0).createAndEnqueue
    { Task.zero with tier := .system, quotaDone := true }).createAndEnqueue
      { Task.zero with tier := .system }

theorem queues_pairQueued : pairQueued.Queues pairQueued.queueOf := by
  have hstable := (((stable_taskInit 0).poised.createAndEnqueue
    { Task.zero with tier := .system, quotaDone := true }).createAndEnqueue
      { Task.zero with tier := .system }).stable
  obtain ⟨Q, hsound⟩ := hstable
  have hQ : pairQueued.Queues Q := hsound.queues
  rw [hQ.queueOf_eq]
  exact hQ

/-- The second of the two is seen and picked. -/
theorem pick_agrees_pairQueued :
    pairQueued.queueOf 1 = [.slot 0, .slot 1] ∧
      pairQueued.peekNextTask = some (some (.slot 1)) ∧
      ∃ cand s', pairQueued.peekNextTask = some cand ∧
        pairQueued.pickNextTask = some (cand, s') ∧
        pairQueued.Picked pairQueued.queueOf (finRange 5) cand s' :=
  ⟨by decide +kernel, by decide +kernel, (pick_agrees queues_pairQueued).1⟩

/-! ## `schedule` -/

/-- The state of the run queues when `schedule` is called: well formed, the idle task in none of
them, and the running task in no other than the one it records. -/
structure Schedulable (s : Sched) (Q : Fin nrQueues → List TaskPtr) : Prop
    extends WellQueued s Q where
  /-- the idle task is never queued -/
  idle : ∀ q, .idle ∉ Q q
  /-- `dequeue_task` finds the running task -/
  current : ∀ q, s.currentTask ∈ Q q → (s.task s.currentTask).curQueue = some q

namespace Sched

variable {s s' : Sched} {Q : Fin nrQueues → List TaskPtr} {t prev : TaskPtr} {q : Fin nrQueues}

/-- **Every call of `schedule` is in such a state**, in runs that keep the queues. -/
theorem Entered.schedulable (h : Entered nobody s) : ∃ Q, Schedulable s Q := by
  have hmember : ∀ {Q E}, Sound nobody s Q E → (∀ q, .idle ∉ Q q) ∧
      ∀ q, s.currentTask ∈ Q q → (s.task s.currentTask).curQueue = some q :=
    fun hsound => ⟨fun q hq => ((hsound.tasks _).member q hq).1 rfl,
      fun q hq => ((hsound.tasks _).member q hq).2.2⟩
  rcases h with ⟨Q, hsound⟩ | ⟨Q, hsound, hidle, hstate⟩
  · obtain ⟨Q', hwell⟩ := Stable.wellQueued ⟨Q, hsound⟩
    have hQ : Q' = Q :=
      (Queues.queueOf_eq ⟨hwell.lists, hwell.disjoint⟩).symm.trans hsound.queues.queueOf_eq
    subst hQ
    exact ⟨Q', hwell, (hmember hsound).1, (hmember hsound).2⟩
  · refine ⟨Q, ⟨hsound.queues.fifo, fun q => (hsound.queues.fifo q).nodup,
      hsound.queues.disjoint, fun q t ht _ => ?_, fun q t ht => ?_, fun i _ hready _ => ?_⟩,
      (hmember hsound).1, (hmember hsound).2⟩
    · exact ⟨((hsound.tasks t).member q ht).2.2,
        ((hsound.tasks t).ready q ht (Set.notMem_empty t)).2⟩
    · rw [((hsound.tasks t).ready q ht (Set.notMem_empty t)).1]
      exact ⟨nofun, nofun⟩
    · obtain ⟨q, hq⟩ := (hsound.tasks _).covered (slot_ne_idle i) hready (Set.notMem_empty _)
      exact ⟨q, hq, fun q' hq' => hsound.queues.disjoint q' q _ hq' hq⟩

/-- The queues with `prev` put back at the end of its own. -/
abbrev putBack (s : Sched) (Q : Fin nrQueues → List TaskPtr) (prev : TaskPtr) :
    Fin nrQueues → List TaskPtr :=
  Function.update Q (taskQidx (s.task prev)) (Q (taskQidx (s.task prev)) ++ [prev])

theorem Queues.requeue (h : Queues s Q) (habs : ∀ q, prev ∉ Q q) :
    Queues (s.requeue prev) (s.putBack Q prev) := by
  have hset : Queues (s.setState prev .ready) Q := h.modify fun _ => rfl
  have hidx : taskQidx ((s.setState prev .ready).task prev) = taskQidx (s.task prev) := by
    rw [setState, task_modify, if_pos rfl]
    rfl
  have henq := hset.enqueue habs
  rw [hidx] at henq
  exact henq

/-- **`pick_next_task`** returns the best task, and every other task stays queued. -/
theorem Queues.pickNextTask (h : Queues s Q) :
    ∃ s' Q', s.pickNextTask = some ((best s Q (finRange 5)).map Prod.snd, s') ∧
      Queues s' Q' ∧ Relinked s s' ∧
      ∀ p q, p ∉ (best s Q (finRange 5)).map Prod.snd → p ∈ Q q → p ∈ Q' q := by
  rcases best_cases s Q (finRange 5) with ⟨hnone, hbest⟩ | ⟨q, pre, t, post, hfirst, hbest⟩
  · refine ⟨s, Q, ?_, h, .refl s, fun _ _ _ hp => hp⟩
    rw [hbest]
    exact h.pickFrom_none hnone
  · obtain ⟨s', hpick, hQ, hr⟩ := h.pickFrom hfirst
    refine ⟨s', _, ?_, hQ, hr.toRelinked, fun p q' hne hp => ?_⟩
    · rw [hbest]
      exact hpick
    · rw [hbest] at hne
      exact (mem_turn hfirst.2.1 (fun he => hne (he ▸ rfl)) q').mpr hp

/-- A better task stays the best one when `prev` is put back. -/
theorem FirstReady.requeue (h : FirstReady s Q (finRange 5) q pre t post)
    (hlt : q < taskQidx (s.task prev)) :
    FirstReady (s.requeue prev) (s.putBack Q prev) (finRange 5) q pre t post := by
  obtain ⟨⟨before, after, hfin, hbefore⟩, hq, hpre, ht⟩ := h
  refine ⟨⟨before, after, hfin, fun q' hq' => ?_⟩, ?_, allDone_requeue.mpr hpre, ?_⟩
  · have hbelow : q' < q := by
      have hsorted := pairwise_lt_finRange 5
      rw [hfin] at hsorted
      exact (pairwise_append.mp hsorted).2.2 q' hq' q mem_cons_self
    rw [putBack, update_of_ne (hbelow.trans hlt).ne]
    exact allDone_requeue.mpr (hbefore q' hq')
  · rw [putBack, update_of_ne hlt.ne]
    exact hq
  · rw [requeue_read Task.quotaDone (fun _ => rfl) fun _ => rfl]
    exact ht

/-- A task that is enqueued is queued, **also when it was the last of its queue already** and now
links to itself. -/
theorem Queues.mem_enqueue (h : Queues s Q)
    (hpos : (∀ q, prev ∉ Q q) ∨ (Q (taskQidx (s.task prev))).getLast? = some prev) :
    prev ∈ (s.enqueueTask prev).queueOf (taskQidx (s.task prev)) := by
  rcases hpos with habs | hlast
  · rw [(h.enqueue habs).queueOf_eq, update_self]
    simp
  generalize hpq : taskQidx (s.task prev) = pq at hlast ⊢
  have hfifo := h.fifo pq
  obtain ⟨l, hl⟩ := getLast?_eq_some_iff.mp hlast
  have hnd := hfifo.nodup
  rw [hl] at hfifo hnd
  have htail : s.rqTail (taskQidx (s.task prev)) = some prev := by
    rw [hpq, hfifo.tail]
    simp
  -- only the link of `prev` itself changes
  have hnext : ∀ p ∈ l, (s.enqueueTask prev).nextOf p = s.nextOf p := fun p hp => by
    have hne : p ≠ prev := by
      rintro rfl
      exact (nodup_append.mp hnd).2.2 p hp p mem_cons_self rfl
    rw [enqueueTask_eq, htail]
    simp only [nextOf_setTail, nextOf_setNext, nextOf_setCurQueue, if_neg hne]
  have hhead : (s.enqueueTask prev).rqHead = s.rqHead := by
    rw [enqueueTask_eq, htail]
    rfl
  have hseg : Seg (s.enqueueTask prev).nextOf ((s.enqueueTask prev).rqHead pq) l (some prev) := by
    rw [hhead]
    exact (seg_concat.mp hfifo.chain).1.congr hnext
  refine hseg.mem_follow ?_
  have := length_lt_queueFuel hnd
  rw [length_append] at this
  omega

theorem queueOf_switchToTask : (s.switchToTask t).queueOf = s.queueOf := by
  have hnext : (s.switchToTask t).nextOf = s.nextOf := funext nextOf_switchToTask
  funext q
  rw [queueOf, hnext]
  rfl

/-- After `prev` was put back and another task was picked, `prev` is queued. -/
theorem Queues.requeue_pick (h : Queues s Q) (habs : ∀ q, prev ∉ Q q)
    (hne : prev ∉ (best (s.requeue prev) (s.putBack Q prev) (finRange 5)).map Prod.snd) :
    ∃ s', (s.requeue prev).pickOrIdle = some (((best (s.requeue prev) (s.putBack Q prev)
        (finRange 5)).map Prod.snd).getD .idle, s') ∧ ∃ q, prev ∈ s'.queueOf q := by
  obtain ⟨s', Q', hpick, hQ', -, hstay⟩ := (h.requeue habs).pickNextTask
  refine ⟨s', bind_of_some hpick _, taskQidx (s.task prev), ?_⟩
  rw [hQ'.queueOf_eq]
  exact hstay prev _ hne (by rw [putBack, update_self]; simp)

/-- **The end of a time slice does not lose `prev`**: it goes on, or it is queued. -/
theorem Queues.expire (h : Queues s Q) (habs : ∀ q, prev ∉ Q q) (hidle : prev ≠ .idle)
    (hcur : s.currentTask = prev) :
    ∃ s', s.expire prev (taskQidx (s.task prev)) = some s' ∧
      (s'.currentTask = prev ∨ ∃ q, prev ∈ s'.queueOf q) := by
  have hback := h.requeue habs
  by_cases hprev :
      prev ∈ (best (s.requeue prev) (s.putBack Q prev) (finRange 5)).map Prod.snd
  · rcases best_cases (s.requeue prev) _ (finRange 5) with
      ⟨-, hbest⟩ | ⟨q, pre, t, post, hfirst, hbest⟩
    · rw [hbest] at hprev
      cases hprev
    rw [hbest] at hprev
    obtain rfl : t = prev := some.inj hprev
    obtain ⟨rfl, rfl, rfl, -⟩ := firstReady_last hback habs hfirst
    obtain ⟨s1, hpick, hQ1, hr1⟩ := hback.pickFrom hfirst
    have hpicked : (s.requeue t).pickOrIdle = some (t, s1) := bind_of_some hpick _
    have hidx1 : taskQidx (s1.task t) = taskQidx (s.task t) := by
      rw [taskQidx_eq hr1.body, requeue_read taskQidx (fun _ => rfl) fun _ => rfl]
    -- `prev` again: now a lower queue may have one slice
    rcases exists_firstReady s1 (again Q (taskQidx (s.task t)) t)
        ((finRange 5).filter fun q => decide ((taskQidx (s.task t) : ℕ) + 1 ≤ q.val)) with
      hnone | ⟨q, pre, c, post, hlow⟩
    · refine ⟨s1.setTaskTimeslice t, ?_, .inl ?_⟩
      · exact expire_again hpicked (hQ1.pickFrom_none hnone)
      · have hcur1 : s1.currentTask = t := by
          rw [currentTask_eq hr1.body, requeue_currentTask, hcur]
        exact hcur1
    have hlt := hlow.lower
    obtain ⟨s2, hlower, hQ2, hr2⟩ := hQ1.pickFrom hlow
    have hidx2 : taskQidx (s2.task t) = taskQidx (s.task t) := by
      rw [taskQidx_eq hr2.body, hidx1]
    refine ⟨(s2.enqueueTask t).switchToTask c, ?_, .inr ⟨taskQidx (s2.task t), ?_⟩⟩
    · exact expire_again hpicked hlower
    · rw [queueOf_switchToTask]
      refine hQ2.mem_enqueue ?_
      by_cases hnil : Q (taskQidx (s.task t)) = []
      · exact .inl fun q' hp => not_mem_again habs hnil q' (mem_of_mem_turn hlow.2.1 hp)
      · refine .inr ?_
        rw [hidx2, update_of_ne hlt.ne, update_self, turn,
          if_neg (by simpa using hnil)]
        simp
  · obtain ⟨s', hpick, q, hq⟩ := h.requeue_pick habs hprev
    generalize (best (s.requeue prev) (s.putBack Q prev) (finRange 5)).map Prod.snd = cand
      at hpick hprev
    have hother : cand.getD .idle ≠ prev := by
      cases cand with
      | none => exact hidle.symm
      | some c => exact fun he => hprev (congrArg some he)
    refine ⟨s'.switchToTask (cand.getD .idle), ?_, .inr ⟨q, ?_⟩⟩
    · rw [Sched.expire, bind_of_some hpick]
      exact if_neg hother
    · rw [queueOf_switchToTask]
      exact hq

/-- The running task is one of the table that can go on. -/
def Runnable (s : Sched) : Prop :=
  s.currentTask ≠ .idle ∧ (s.task s.currentTask).state ≠ .exited ∧
    (s.task s.currentTask).state ≠ .waiting

/-- The best task besides the running one. -/
def bestOther (s : Sched) (Q : Fin nrQueues → List TaskPtr) : Option (Fin nrQueues × TaskPtr) :=
  best s (without Q s.currentTask) (finRange 5)

/-- The best other task is in a better queue than that of the running one. -/
def Outranked (s : Sched) (Q : Fin nrQueues → List TaskPtr) : Prop :=
  ∃ q c, s.bestOther Q = some (q, c) ∧ q < taskQidx (s.task s.currentTask)

/-- `schedule` went from `s` to `s'`. -/
structure Selects (s : Sched) (Q : Fin nrQueues → List TaskPtr) (s' : Sched) : Prop where
  /-- when the running task cannot go on or is outranked, the best other task runs, or the idle
  task if there is none -/
  switches : ¬ s.Runnable ∨ s.Outranked Q →
    s'.currentTask = ((s.bestOther Q).map Prod.snd).getD .idle
  /-- with slice left, a running task that is not outranked goes on -/
  stays : s.Runnable → 0 < sliceLeft (s.task s.currentTask) → ¬ s.Outranked Q →
    s'.currentTask = s.currentTask
  /-- a task that can go on is not lost -/
  keeps : s.Runnable → s'.currentTask = s.currentTask ∨ ∃ q, s.currentTask ∈ s'.queueOf q

/-- The running task cannot go on: the best task is switched to. -/
theorem Queues.selects_of_not_runnable (h : Queues s Q) (hrun : ¬ s.Runnable)
    (habs : ∀ q, s.currentTask ∉ Q q) :
    ∃ s', s.pickNextTask = some ((s.bestOther Q).map Prod.snd, s') ∧
      (s.bestOther Q = none → s.currentTask = .idle → Selects s Q s') ∧
      Selects s Q (s'.switchToTask (((s.bestOther Q).map Prod.snd).getD .idle)) := by
  obtain ⟨s', Q', hpick, -, hr, -⟩ := h.pickNextTask
  rw [← without_eq_self habs] at hpick
  refine ⟨s', hpick, fun hnone hidle => ?_, ⟨fun _ => rfl, fun hc => absurd hc hrun,
    fun hc => absurd hc hrun⟩⟩
  refine ⟨fun _ => ?_, fun hc => absurd hc hrun, fun hc => absurd hc hrun⟩
  rw [hnone, currentTask_eq hr.body, hidle]
  rfl

/-- **`peek_next_task`** sees the best task. -/
theorem Queues.peekNextTask (h : Queues s Q) :
    s.peekNextTask = some ((best s Q (finRange 5)).map Prod.snd) := by
  rcases best_cases s Q (finRange 5) with ⟨hnone, hbest⟩ | ⟨q, pre, t, post, hfirst, hbest⟩
  · rw [hbest]
    exact h.peekFrom_none hnone
  · rw [hbest]
    exact h.peekFrom hfirst

theorem Decides.best_eq {s1 : Sched} (h : Decides s Q s1) :
    best s1 (without Q s.currentTask) (finRange 5) = s.bestOther Q :=
  best_congr h.quotaDone _

end Sched

namespace Schedulable

open Sched

variable {s : Sched} {Q : Fin nrQueues → List TaskPtr}

variable (h : Schedulable s Q)
include h

theorem queues : s.Queues Q := ⟨h.lists, h.disjoint⟩

theorem absent (q : Fin nrQueues) :
    s.currentTask ∉ without Q s.currentTask q := (h.nodup q).not_mem_erase

/-- The best other task is in the queue of its index. -/
theorem taskQidx_bestOther {q : Fin nrQueues} {c : TaskPtr}
    (hbest : s.bestOther Q = some (q, c)) : taskQidx (s.task c) = q := by
  rcases best_cases s (without Q s.currentTask) (finRange 5) with
    ⟨-, hnone⟩ | ⟨q', pre, t, post, hfirst, hsome⟩
  · cases hnone.symm.trans hbest
  · obtain ⟨rfl, rfl⟩ := Prod.mk.inj (some.inj (hsome.symm.trans hbest))
    have hmem := hfirst.mem
    refine (h.recorded q' t (mem_of_mem_erase hmem) ?_).2
    rintro rfl
    exact h.absent q' hmem

/-- **The running task is outranked** iff `schedule` finds it so. -/
theorem outranked_iff {s1 : Sched} (hd : Decides s Q s1) :
    (((s.bestOther Q).map Prod.snd).any fun c =>
      taskQidx (s1.task c) < taskQidx (s.task s.currentTask)) ↔ s.Outranked Q := by
  simp only [Outranked]
  cases hbest : s.bestOther Q with
  | none => simp
  | some b =>
    obtain ⟨q, c⟩ := b
    rw [map_some, any_some, decide_eq_true_eq, hd.taskQidx,
      h.taskQidx_bestOther hbest]
    constructor
    · intro hlt
      exact ⟨q, c, rfl, hlt⟩
    · rintro ⟨q', c', he, hlt⟩
      cases he
      exact hlt

/-- `schedule` up to the decision. -/
theorem decides : ∃ s1, Decides s Q s1 ∧ s1.peekNextTask = some ((s.bestOther Q).map Prod.snd) := by
  obtain ⟨s1, hdeq, hQ, hr⟩ := h.queues.dequeue h.current
  have hd := decides_dequeued hdeq hQ hr.body
  have hpeek := hd.queues.peekNextTask
  rw [hd.best_eq] at hpeek
  exact ⟨_, hd, hpeek⟩

/-- **The running task goes on, is preempted or has used up its slice.** -/
theorem selects_running (hrun : s.Runnable) :
    ∃ s', s.scheduleRunning s.currentTask = some s' ∧ Selects s Q s' := by
  obtain ⟨s1, hd, hpeek⟩ := h.decides
  have hiff := h.outranked_iff hd
  rw [hd.running hpeek]
  by_cases hout : s.Outranked Q
  · -- preempted
    rw [if_pos (hiff.mpr hout)]
    obtain ⟨q, c, hbest, hlt⟩ := hout
    rcases best_cases s1 (without Q s.currentTask) (finRange 5) with
      ⟨-, hnone⟩ | ⟨q', pre, t, post, hfirst, hsome⟩
    · cases (hnone.symm.trans (hd.best_eq.trans hbest))
    obtain ⟨rfl, rfl⟩ :=
      Prod.mk.inj (some.inj (hsome.symm.trans (hd.best_eq.trans hbest)))
    have hne : t ≠ s.currentTask := by
      rintro rfl
      exact h.absent q' hfirst.mem
    have hagain := (hfirst.requeue (by rw [hd.taskQidx]; exact hlt)).best_eq
    obtain ⟨s2, hpick, hqueued⟩ := hd.queues.requeue_pick h.absent (by
      rw [hagain]
      exact fun he => hne (some.inj he))
    rw [hagain] at hpick
    refine ⟨_, bind_of_some hpick _, fun _ => ?_, fun _ _ hno => ?_, fun _ => .inr ?_⟩
    · rw [hbest]
      rfl
    · exact absurd ⟨q', t, hbest, hlt⟩ hno
    · rw [queueOf_switchToTask]
      exact hqueued
  · rw [if_neg (hiff.not.mpr hout)]
    have hno : ¬ (¬ s.Runnable ∨ s.Outranked Q) := by
      rintro (hc | hc)
      · exact hc hrun
      · exact hout hc
    split
    · -- the slice is used up
      rename_i hslice
      rw [hd.slice] at hslice
      obtain ⟨s', hexpire, hkeep⟩ := hd.queues.expire h.absent hrun.1 hd.current
      rw [hd.taskQidx] at hexpire
      exact ⟨s', hexpire, fun hc => absurd hc hno, fun _ hpos => absurd hslice (not_le.mpr hpos),
        fun _ => hkeep⟩
    · -- it goes on
      exact ⟨s1, rfl, fun hc => absurd hc hno, fun _ _ _ => hd.current, fun _ => .inl hd.current⟩

/-- The running task waits or has ended, or is the idle task: it is in no queue. -/
theorem absent_of_not_runnable (hrun : ¬ s.Runnable) (q : Fin nrQueues) : s.currentTask ∉ Q q := by
  intro hq
  refine hrun ⟨fun hidle => h.idle q (hidle ▸ hq), (h.awake q _ hq).2, (h.awake q _ hq).1⟩

end Schedulable

/-- **Preemption selects the best ready task.** With well-formed queues `schedule` returns; it
switches to the best other task when the running one cannot go on or is outranked, lets a task
with slice left go on otherwise, and never loses one that can go on. -/
theorem schedule_selects {s : Sched} {Q : Fin nrQueues → List TaskPtr} (h : Schedulable s Q) :
    ∃ s', s.schedule = some s' ∧ s.Selects Q s' := by
  by_cases hrun : s.Runnable
  · obtain ⟨s', heval, hsel⟩ := h.selects_running hrun
    refine ⟨s', ?_, hsel⟩
    rw [schedule, if_neg hrun.1]
    cases hstate : (s.task s.currentTask).state with
    | exited => exact absurd hstate hrun.2.1
    | waiting => exact absurd hstate hrun.2.2
    | running => exact heval
    | ready => exact heval
  have habs := h.absent_of_not_runnable hrun
  obtain ⟨s', hpick, hidle, hswitch⟩ := h.queues.selects_of_not_runnable hrun habs
  by_cases hcur : s.currentTask = .idle
  · cases hbest : s.bestOther Q with
    | none =>
      rw [hbest] at hpick
      refine ⟨s', ?_, hidle hbest hcur⟩
      rw [schedule, if_pos hcur, bind_of_some hpick]
      rfl
    | some b =>
      rw [hbest] at hpick hswitch
      refine ⟨_, ?_, hswitch⟩
      rw [schedule, if_pos hcur, bind_of_some hpick]
      rfl
  have hnext : s.pickOrIdle = some (((s.bestOther Q).map Prod.snd).getD .idle, s') :=
    bind_of_some hpick _
  refine ⟨_, ?_, hswitch⟩
  rw [schedule, if_neg hcur]
  cases hstate : (s.task s.currentTask).state with
  | exited => exact bind_of_some hnext _
  | waiting => exact (bind_of_some (h.queues.dequeue_absent habs) _).trans (bind_of_some hnext _)
  | running => exact absurd ⟨hcur, by simp [hstate], by simp [hstate]⟩ hrun
  | ready => exact absurd ⟨hcur, by simp [hstate], by simp [hstate]⟩ hrun

/-- A user task runs when a system task is created. -/
def preemptRun : List SchedEvent :=
  [.create { Task.zero with tier := .user }, .schedule, .create { Task.zero with tier := .system }]

/-- The system task preempts it. -/
theorem schedule_selects_preemptRun :
    ∃ s s', schedSystem.run (Sched.taskInit 0) preemptRun = some s ∧
      s.currentTask = .slot 0 ∧ s.Outranked s.queueOf ∧ s.schedule = some s' ∧
      s'.currentTask = .slot 1 ∧ ∃ q, .slot 0 ∈ s'.queueOf q := by
  have hstable := ((stable_taskInit 0).poised.createAndEnqueue
    { Task.zero with tier := .user }).stable
  obtain ⟨s1, hs1, hstable1⟩ :=
    Sched.Entered.stable_schedule (.inl hstable) fun hdouble => hdouble.1 rfl
  have hrun : schedSystem.run (taskInit 0) preemptRun =
      some (s1.createAndEnqueue { Task.zero with tier := .system }) := by
    change ((taskInit 0).createAndEnqueue { Task.zero with tier := .user }).schedule.bind
      (fun s => schedSystem.run s [.create { Task.zero with tier := .system }]) = _
    rw [hs1]
    rfl
  have hstable2 := (hstable1.poised.createAndEnqueue { Task.zero with tier := .system }).stable
  have hread : (schedSystem.run (taskInit 0) preemptRun).map (fun s =>
      (s.currentTask, s.bestOther s.queueOf, taskQidx (s.task (.slot 0)),
        (s.task (.slot 0)).state)) =
      some (.slot 0, some (1, .slot 1), 2, .running) := by decide +kernel
  rw [hrun, map_some] at hread
  generalize s1.createAndEnqueue { Task.zero with tier := .system } = s at *
  obtain ⟨hcur, hbest, hidx, hstate⟩ : s.currentTask = .slot 0 ∧
      s.bestOther s.queueOf = some (1, .slot 1) ∧ taskQidx (s.task (.slot 0)) = 2 ∧
      (s.task (.slot 0)).state = .running := by simpa using hread
  obtain ⟨Q, hQ⟩ := Sched.Entered.schedulable (.inl hstable2)
  have hqueue := hQ.queues.queueOf_eq
  obtain ⟨s', heval, hsel⟩ := schedule_selects hQ
  have hrunnable : s.Runnable := by
    refine ⟨?_, ?_, ?_⟩ <;> simp [hcur, hstate]
  have hout : s.Outranked s.queueOf := ⟨1, .slot 1, hbest, by rw [hcur, hidx]; decide⟩
  have hswitch := hsel.switches (.inr (hqueue ▸ hout))
  rw [← hqueue, hbest] at hswitch
  refine ⟨s, s', hrun, hcur, hout, heval, hswitch, ?_⟩
  rcases hsel.keeps hrunnable with hc | hq
  · rw [hswitch, hcur] at hc
    cases hc
  · rwa [hcur] at hq

end PokuOS
