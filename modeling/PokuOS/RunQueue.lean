import Mathlib.Data.List.Perm.Subperm
import PokuOS.Frame

/-!
# Run queues as lists

`Queues s Q`: following the links of `s` from each queue's head visits the tasks `Q q`, the
tail pointer is at the last of them, and no task is in two queues. One specification for
each queue operation of `kernel/task.c`: what it does to the lists.

Queue operations touch links only: the `body` of the state stays.
-/

namespace PokuOS

open Function List Sched

namespace Sched

/-- The `cur_queue` field. -/
def curQueueOf (s : Sched) (t : TaskPtr) : Option (Fin nrQueues) := (s.task t).curQueue

variable {s s' : Sched}

/-! ## Single updates -/

section Updates

variable (s) (t p : TaskPtr) (q q' : Fin nrQueues) (n : Option TaskPtr)

theorem nextOf_setNext : (s.setNext t n).nextOf p = if p = t then n else s.nextOf p := by
  unfold nextOf setNext
  rw [task_modify]
  split <;> rfl

@[simp] theorem nextOf_setCurQueue (c : Option (Fin nrQueues)) :
    (s.setCurQueue t c).nextOf p = s.nextOf p :=
  read_modify Task.next (fun _ => by rfl) s t p

@[simp] theorem nextOf_setHead : (s.setHead q n).nextOf p = s.nextOf p := rfl

@[simp] theorem nextOf_setTail : (s.setTail q n).nextOf p = s.nextOf p := rfl

@[simp] theorem rqHead_modify (f : Task → Task) : (s.modify t f).rqHead = s.rqHead := rfl

@[simp] theorem rqTail_modify (f : Task → Task) : (s.modify t f).rqTail = s.rqTail := rfl

@[simp] theorem rqHead_setNext : (s.setNext t n).rqHead = s.rqHead := rfl

@[simp] theorem rqTail_setNext : (s.setNext t n).rqTail = s.rqTail := rfl

@[simp] theorem rqHead_setTail : (s.setTail q n).rqHead = s.rqHead := rfl

@[simp] theorem rqTail_setHead : (s.setHead q n).rqTail = s.rqTail := rfl

theorem rqHead_setHead : (s.setHead q n).rqHead q' = if q' = q then n else s.rqHead q' :=
  update_apply ..

theorem rqTail_setTail : (s.setTail q n).rqTail q' = if q' = q then n else s.rqTail q' :=
  update_apply ..

@[simp] theorem curQueueOf_setNext : (s.setNext t n).curQueueOf p = s.curQueueOf p :=
  read_modify Task.curQueue (fun _ => by rfl) s t p

theorem curQueueOf_setCurQueue (c : Option (Fin nrQueues)) :
    (s.setCurQueue t c).curQueueOf p = if p = t then c else s.curQueueOf p := by
  unfold curQueueOf setCurQueue
  rw [task_modify]
  split <;> rfl

@[simp] theorem curQueueOf_setHead : (s.setHead q n).curQueueOf p = s.curQueueOf p := rfl

@[simp] theorem curQueueOf_setTail : (s.setTail q n).curQueueOf p = s.curQueueOf p := rfl

end Updates

/-! ## Representation -/

/-- The queues of `s` are the lists `Q`. -/
structure Queues (s : Sched) (Q : Fin nrQueues → List TaskPtr) : Prop where
  /-- each queue is a proper list with its tail pointer at the last task -/
  fifo : ∀ q, Fifo s.nextOf (s.rqHead q) (s.rqTail q) (Q q)
  /-- no task is in two queues -/
  disjoint : ∀ q q' t, t ∈ Q q → t ∈ Q q' → q = q'

variable {l : List TaskPtr}

/-- There are seventeen tasks. -/
theorem length_lt_queueFuel (h : l.Nodup) : l.length < queueFuel := by
  have hsub : l ⊆ .idle :: (finRange maxTasks).map .slot := fun t _ => by
    cases t with
    | idle => exact mem_cons_self
    | slot i => exact mem_cons_of_mem _ (mem_map_of_mem (mem_finRange i))
  have := (h.subperm hsub).length_le
  simp only [length_cons, length_map, length_finRange] at this
  exact Nat.lt_of_le_of_lt this (by decide)

variable {Q : Fin nrQueues → List TaskPtr} {t : TaskPtr} {q : Fin nrQueues}

/-- Changing one queue: the links of its old and new members, and its two pointers. -/
theorem Queues.replace (h : Queues s Q) (l : List TaskPtr)
    (hl : Fifo s'.nextOf (s'.rqHead q) (s'.rqTail q) l)
    (hhead : ∀ q', q' ≠ q → s'.rqHead q' = s.rqHead q')
    (htail : ∀ q', q' ≠ q → s'.rqTail q' = s.rqTail q')
    (hnext : ∀ q', q' ≠ q → ∀ p ∈ Q q', s'.nextOf p = s.nextOf p)
    (hnew : ∀ q', q' ≠ q → ∀ p ∈ l, p ∉ Q q') : Queues s' (update Q q l) := by
  refine ⟨fun q' => ?_, fun q1 q2 p h1 h2 => ?_⟩
  · by_cases hq : q' = q
    · rw [hq, update_self]
      exact hl
    · rw [update_of_ne hq, hhead q' hq, htail q' hq]
      exact (h.fifo q').congr (hnext q' hq)
  · by_cases hq1 : q1 = q <;> by_cases hq2 : q2 = q
    · rw [hq1, hq2]
    · rw [hq1, update_self] at h1
      rw [update_of_ne hq2] at h2
      exact absurd h2 (hnew q2 hq2 p h1)
    · rw [hq2, update_self] at h2
      rw [update_of_ne hq1] at h1
      exact absurd h1 (hnew q1 hq1 p h2)
    · rw [update_of_ne hq1] at h1
      rw [update_of_ne hq2] at h2
      exact h.disjoint q1 q2 p h1 h2

/-- Changing one queue without new tasks: the links outside it stay. -/
theorem Queues.rearrange (h : Queues s Q) (hsub : ∀ p ∈ l, p ∈ Q q)
    (hl : Fifo s'.nextOf (s'.rqHead q) (s'.rqTail q) l)
    (hhead : ∀ q', q' ≠ q → s'.rqHead q' = s.rqHead q')
    (htail : ∀ q', q' ≠ q → s'.rqTail q' = s.rqTail q')
    (hnext : ∀ p, p ∉ Q q → s'.nextOf p = s.nextOf p) : Queues s' (update Q q l) := by
  refine h.replace l hl hhead htail (fun q' hne p hp => hnext p fun hq => ?_)
    fun q' hne p hp hq => ?_
  · exact hne (h.disjoint q' q p hp hq)
  · exact hne (h.disjoint q' q p hq (hsub p hp))

/-! ## `enqueue_task` -/

theorem enqueueTask_eq (s : Sched) (t : TaskPtr) :
    s.enqueueTask t = match s.rqTail (taskQidx (s.task t)) with
      | some tail => ((((s.setCurQueue t (some (taskQidx (s.task t)))).setNext t none).setNext
          tail (some t)).setTail (taskQidx (s.task t)) (some t))
      | none => ((((s.setCurQueue t (some (taskQidx (s.task t)))).setNext t none).setHead
          (taskQidx (s.task t)) (some t)).setTail (taskQidx (s.task t)) (some t)) := rfl

theorem enqueueTask_curQueueOf (s : Sched) (t p : TaskPtr) :
    (s.enqueueTask t).curQueueOf p =
      if p = t then some (taskQidx (s.task t)) else s.curQueueOf p := by
  rw [enqueueTask_eq]
  split
  · rw [curQueueOf_setTail, curQueueOf_setNext, curQueueOf_setNext, curQueueOf_setCurQueue]
  · rw [curQueueOf_setTail, curQueueOf_setHead, curQueueOf_setNext, curQueueOf_setCurQueue]

/-- **`enqueue_task`** of a task that is in no queue appends it to the queue of its index. -/
theorem Queues.enqueue (h : Queues s Q) (ht : ∀ q, t ∉ Q q) :
    Queues (s.enqueueTask t)
      (update Q (taskQidx (s.task t)) (Q (taskQidx (s.task t)) ++ [t])) := by
  rw [enqueueTask_eq]
  generalize taskQidx (s.task t) = q
  set s1 := (s.setCurQueue t (some q)).setNext t none with hs1
  have hfifo := h.fifo q
  have hnext1 : ∀ p, s1.nextOf p = if p = t then none else s.nextOf p := fun p => by
    rw [hs1, nextOf_setNext, nextOf_setCurQueue]
  have hfresh : ∀ q', q' ≠ q → ∀ p ∈ Q q ++ [t], p ∉ Q q' := by
    intro q' hne p hp hp'
    rcases mem_append.mp hp with hp | hp
    · exact hne (h.disjoint q' q p hp' hp)
    · rw [mem_singleton.mp hp] at hp'
      exact ht q' hp'
  cases htail : s.rqTail q with
  | none =>
    have hnil : Q q = [] := by
      rw [hfifo.tail] at htail
      exact getLast?_eq_none_iff.mp htail
    refine h.replace _ ?_ (fun q' hne => ?_) (fun q' hne => ?_) (fun q' hne p hp => ?_) hfresh
    · rw [rqHead_setTail, rqHead_setHead, rqTail_setTail, if_pos rfl, if_pos rfl, hnil]
      refine ⟨⟨rfl, ?_⟩, rfl⟩
      rw [nextOf_setTail, nextOf_setHead, hnext1, if_pos rfl]
      rfl
    · rw [rqHead_setTail, rqHead_setHead, if_neg hne]
      rfl
    · rw [rqTail_setTail, if_neg hne]
      rfl
    · rw [nextOf_setTail, nextOf_setHead, hnext1, if_neg (by rintro rfl; exact ht q' hp)]
  | some tail =>
    have hmem : tail ∈ Q q := by
      rw [hfifo.tail] at htail
      exact mem_of_mem_getLast? htail
    have hne_t : tail ≠ t := fun e => ht q (e ▸ hmem)
    have hnext : ∀ p, ((s1.setNext tail (some t)).setTail q (some t)).nextOf p =
        if p = tail then some t else if p = t then none else s.nextOf p := fun p => by
      rw [nextOf_setTail, nextOf_setNext, hnext1]
    refine h.replace _ ?_ (fun _ _ => rfl) (fun q' hne => ?_) (fun q' hne p hp => ?_) hfresh
    · have hpush := hfifo.push ((s1.setNext tail (some t)).setTail q (some t)).nextOf
        (by rw [hnext, if_neg hne_t.symm, if_pos rfl])
        (fun b hb => by
          rw [htail] at hb
          cases hb
          rw [hnext, if_pos rfl])
        (fun b hb hbt => by
          rw [hnext, if_neg (by rintro rfl; exact hbt htail),
            if_neg (by rintro rfl; exact ht q hb)])
      rw [if_neg (ne_nil_of_mem hmem)] at hpush
      rw [rqTail_setTail, if_pos rfl]
      exact hpush
    · rw [rqTail_setTail, if_neg hne]
      rfl
    · rw [hnext, if_neg (by rintro rfl; exact hne (h.disjoint q' q p hp hmem)),
        if_neg (by rintro rfl; exact ht q' hp)]

/-- Of the tasks that are in no queue, only its own link is written. -/
theorem Queues.nextOf_enqueueTask {p : TaskPtr} (h : Queues s Q) (hne : p ≠ t)
    (hp : ∀ q, p ∉ Q q) : (s.enqueueTask t).nextOf p = s.nextOf p := by
  rw [enqueueTask_eq]
  split
  · rename_i tail htail
    rw [(h.fifo _).tail] at htail
    rw [nextOf_setTail, nextOf_setNext, if_neg, nextOf_setNext, if_neg hne, nextOf_setCurQueue]
    rintro rfl
    exact hp _ (mem_of_mem_getLast? htail)
  · rw [nextOf_setTail, nextOf_setHead, nextOf_setNext, if_neg hne, nextOf_setCurQueue]

/-! ## `dequeue_task` -/

/-- The list operation behind `dequeue_task`: the task leaves every queue. -/
def without (Q : Fin nrQueues → List TaskPtr) (t : TaskPtr) : Fin nrQueues → List TaskPtr :=
  fun q => (Q q).erase t

theorem without_eq_self (ht : ∀ q, t ∉ Q q) : without Q t = Q := by
  funext q
  exact erase_of_not_mem (ht q)

theorem Queues.without_eq_update (h : Queues s Q) {l1 l2 : List TaskPtr}
    (hq : Q q = l1 ++ t :: l2) : without Q t = update Q q (l1 ++ l2) := by
  funext q'
  by_cases hne : q' = q
  · rw [hne, update_self, without, hq]
    have hnd := (h.fifo q).nodup
    rw [hq] at hnd
    have hnot : t ∉ l1 := fun hm =>
      (nodup_append.mp hnd).2.2 t hm t mem_cons_self rfl
    rw [erase_append_right _ hnot, erase_cons_head]
  · rw [update_of_ne hne, without]
    refine erase_of_not_mem fun hm => hne (h.disjoint q' q t hm ?_)
    rw [hq]
    exact mem_append_right _ mem_cons_self

/-- Only the predecessor of a task in its queue links to it. -/
theorem next_ne_of_mem_prefix {next : TaskPtr → Option TaskPtr} {p : Option TaskPtr}
    {l2 : List TaskPtr} {c b : TaskPtr} (h : Seg next p (l ++ c :: t :: l2) none) (hb : b ∈ l) :
    next b ≠ some t := by
  obtain ⟨u, v, rfl⟩ := append_of_mem hb
  have hnd := h.nodup
  rw [append_assoc, cons_append] at h
  rw [h.next_eq]
  intro hhead
  have hmem : t ∈ v ++ [c] := by
    cases v <;> cases hhead <;> exact mem_cons_self
  have hsplit : (u ++ b :: v) ++ c :: t :: l2 = (u ++ b :: (v ++ [c])) ++ t :: l2 := by simp
  rw [hsplit] at hnd
  exact (nodup_append.mp hnd).2.2 t (by simp at hmem ⊢; tauto) t mem_cons_self rfl

/-- What an operation on links leaves alone. -/
structure Relinked (s s' : Sched) : Prop where
  body : s'.body = s.body
  /-- the recorded queue numbers -/
  curQueueOf : ∀ p, s'.curQueueOf p = s.curQueueOf p

theorem Relinked.refl (s : Sched) : Relinked s s := ⟨rfl, fun _ => rfl⟩

/-- What an operation on the queues `Q` leaves alone: also **the links outside them**. -/
structure Moved (Q : Fin nrQueues → List TaskPtr) (s s' : Sched) : Prop extends
    Relinked s s' where
  /-- links of tasks that are in no queue -/
  outside : ∀ p, (∀ q, p ∉ Q q) → s'.nextOf p = s.nextOf p

theorem Moved.refl (Q : Fin nrQueues → List TaskPtr) (s : Sched) : Moved Q s s :=
  ⟨.refl s, fun _ _ => rfl⟩

theorem Moved.trans {s'' : Sched} (h : Moved Q s s') (h' : Moved (update Q q l) s' s'')
    (hl : ∀ p ∈ l, p ∈ Q q) : Moved Q s s'' := by
  refine ⟨⟨h'.body.trans h.body, fun p => (h'.curQueueOf p).trans (h.curQueueOf p)⟩,
    fun p hp => (h'.outside p fun q' hq' => ?_).trans (h.outside p hp)⟩
  by_cases heq : q' = q
  · rw [heq, update_self] at hq'
    exact hp q (hl p hq')
  · rw [update_of_ne heq] at hq'
    exact hp q' hq'

/-- `dequeue_task` at the head of a queue. -/
theorem Queues.dequeue_head (h : Queues s Q) (hq : Q q = t :: l) (hcur : s.curQueueOf t = some q) :
    ∃ s', s.dequeueTask t = some s' ∧ Queues s' (without Q t) ∧ Moved Q s s' := by
  have hfifo : Fifo s.nextOf (s.rqHead q) (s.rqTail q) ([] ++ t :: l) := hq ▸ h.fifo q
  have hhead : s.rqHead q = some t := hfifo.chain.1
  have hnext : s.nextOf t = l.head? := hfifo.chain.2.head_eq
  set s1 := (if (s.nextOf t).isNone then (s.setHead q (s.nextOf t)).setTail q none
    else s.setHead q (s.nextOf t)) with hs1
  have heval : s.dequeueTask t = some (s1.setNext t none) := by
    unfold dequeueTask
    unfold curQueueOf at hcur
    simp only [hcur, hhead, if_true, hs1]
  have hnext1 : ∀ p, (s1.setNext t none).nextOf p = if p = t then none else s.nextOf p := by
    intro p
    rw [nextOf_setNext, hs1]
    split_ifs <;> rfl
  have hrest := hfifo.remove (s1.setNext t none).nextOf (by simp)
    (fun b _ _ hbt => by rw [hnext1, if_neg hbt])
  simp only [if_true, nil_append] at hrest
  have hout : ∀ p, p ∉ Q q → (s1.setNext t none).nextOf p = s.nextOf p := by
    intro p hp
    rw [hnext1, if_neg]
    rintro rfl
    exact hp (hq ▸ mem_cons_self)
  refine ⟨_, heval, ?_, ⟨⟨?_, fun p => ?_⟩, fun p hp => hout p (hp q)⟩⟩
  · rw [h.without_eq_update (show Q q = [] ++ t :: l from hq)]
    refine h.rearrange (fun p hp => hq ▸ mem_cons_of_mem _ hp) ?_ (fun q' hne => ?_)
      (fun q' hne => ?_) hout
    · have hends : s1.rqHead q = s.nextOf t ∧
          s1.rqTail q = if l = [] then ([] : List TaskPtr).getLast? else s.rqTail q := by
        rw [hs1, hnext]
        cases l with
        | nil => simp [rqHead_setHead, rqTail_setTail]
        | cons c l => simp [rqHead_setHead]
      rw [rqHead_setNext, rqTail_setNext, hends.1, hends.2]
      exact hrest
    · rw [rqHead_setNext, hs1]
      split_ifs <;> simp [rqHead_setHead, hne]
    · rw [rqTail_setNext, hs1]
      split_ifs <;> simp [rqTail_setTail, hne]
  · rw [body_setNext, hs1]
    split_ifs <;> rfl
  · rw [curQueueOf_setNext, hs1]
    split_ifs <;> rfl

/-- `dequeue_task` behind the head of a queue: the walk stops at the predecessor `c`. -/
theorem Queues.dequeue_inner (h : Queues s Q) {l2 : List TaskPtr} {c : TaskPtr}
    (hq : Q q = (l ++ [c]) ++ t :: l2) (hcur : s.curQueueOf t = some q) :
    ∃ s', s.dequeueTask t = some s' ∧ Queues s' (without Q t) ∧ Moved Q s s' := by
  have hfifo : Fifo s.nextOf (s.rqHead q) (s.rqTail q) ((l ++ [c]) ++ t :: l2) := hq ▸ h.fifo q
  have hnd := hfifo.nodup
  have hct : c ≠ t := by
    rintro rfl
    exact (nodup_append.mp hnd).2.2 c (by simp) c mem_cons_self rfl
  have hchain : Seg s.nextOf (s.rqHead q) (l ++ c :: t :: l2) none := by
    have := hfifo.chain
    rwa [append_assoc] at this
  have hhead : s.rqHead q ≠ some t := by
    rw [hfifo.head_eq]
    intro hht
    have : t ∈ l ++ [c] := by
      cases l with
      | nil =>
        cases hht
        exact mem_cons_self
      | cons d l =>
        cases hht
        exact mem_cons_self
    exact (nodup_append.mp hnd).2.2 t this t mem_cons_self rfl
  have hwalk : walk s.nextOf (fun p => s.nextOf p == some t) queueFuel none (s.rqHead q) =
      some (l.getLast?.or none, some c) := by
    refine walk_seg _ hchain (fun b hb => ?_) (fun b hb => ?_) ?_
    · simpa using next_ne_of_mem_prefix hchain hb
    · cases hb
      rw [hchain.next_eq]
      simp
    · have := length_lt_queueFuel hnd
      simp only [length_append] at this
      omega
  -- the predecessor takes over the link, and the tail pointer when there is none
  set s1 := (if s.rqTail q = some t then (s.setNext c (s.nextOf t)).setTail q (some c)
    else s.setNext c (s.nextOf t)) with hs1
  have heval : s.dequeueTask t = some (s1.setNext t none) := by
    unfold dequeueTask
    unfold curQueueOf at hcur
    simp only [hcur, hhead, if_false]
    rw [bind_of_some hwalk]
    rfl
  have hnext1 : ∀ p, (s1.setNext t none).nextOf p =
      if p = t then none else if p = c then s.nextOf t else s.nextOf p := by
    intro p
    rw [nextOf_setNext, hs1]
    split_ifs <;> simp_all [nextOf_setNext]
  have hrest := hfifo.remove (s1.setNext t none).nextOf
    (fun b hb => by
      obtain rfl : c = b := by simpa using hb
      rw [hnext1, if_neg hct, if_pos rfl])
    (fun b _ hbc hbt => by
      rw [hnext1, if_neg hbt, if_neg (by rintro rfl; exact hbc (by simp))])
  rw [if_neg (by simp)] at hrest
  have htail : s1.rqTail q = if l2 = [] then (l ++ [c]).getLast? else s.rqTail q := by
    have hlast : s.rqTail q = some t ↔ l2 = [] := by
      rw [hfifo.tail]
      cases l2 with
      | nil => simp
      | cons d l2 =>
        simp only [reduceCtorEq, iff_false]
        intro hl
        have hmem : t ∈ d :: l2 := by
          refine mem_of_mem_getLast? (?_ : t ∈ (d :: l2).getLast?)
          rw [getLast?_append_of_ne_nil _ (by simp), getLast?_cons_cons] at hl
          exact hl
        exact (nodup_cons.mp (nodup_append.mp hnd).2.1).1 hmem
    rw [hs1]
    by_cases hl2 : l2 = []
    · rw [if_pos (hlast.mpr hl2), if_pos hl2, rqTail_setTail, if_pos rfl]
      simp
    · rw [if_neg (fun hc => hl2 (hlast.mp hc)), if_neg hl2]
      rfl
  have hheads : s1.rqHead = s.rqHead := by
    rw [hs1]
    split_ifs <;> rfl
  have hout : ∀ p, p ∉ Q q → (s1.setNext t none).nextOf p = s.nextOf p := by
    intro p hp
    have hnot : ∀ d ∈ Q q, p ≠ d := by
      rintro d hd rfl
      exact hp hd
    rw [hnext1, if_neg (hnot t (by rw [hq]; simp)), if_neg (hnot c (by rw [hq]; simp))]
  refine ⟨_, heval, ?_, ⟨⟨?_, fun p => ?_⟩, fun p hp => hout p (hp q)⟩⟩
  · rw [h.without_eq_update hq]
    refine h.rearrange (fun p hp => ?_) ?_ (fun q' hne => ?_) (fun q' hne => ?_) hout
    · rw [hq]
      rcases mem_append.mp hp with hp | hp
      · exact mem_append_left _ hp
      · exact mem_append_right _ (mem_cons_of_mem _ hp)
    · rw [rqHead_setNext, rqTail_setNext, hheads, htail]
      exact hrest
    · rw [rqHead_setNext, hheads]
    · rw [rqTail_setNext, hs1]
      split_ifs <;> simp [rqTail_setTail, hne]
  · rw [body_setNext, hs1]
    split_ifs <;> simp
  · rw [curQueueOf_setNext, hs1]
    split_ifs <;> simp

/-- `dequeue_task` of a task that is not in the queue it remembers does nothing. -/
theorem Queues.dequeue_absent (h : Queues s Q) (ht : ∀ q, t ∉ Q q) :
    s.dequeueTask t = some s := by
  unfold dequeueTask
  cases hcur : (s.task t).curQueue with
  | none => rfl
  | some q =>
    have hfifo := h.fifo q
    have hhead : s.rqHead q ≠ some t := by
      rw [hfifo.head_eq]
      exact fun hht => ht q (mem_of_mem_head? hht)
    have hwalk : walk s.nextOf (fun p => s.nextOf p == some t) queueFuel none (s.rqHead q) =
        some ((Q q).getLast?.or none, none) := by
      have hchain : Seg s.nextOf (s.rqHead q) (Q q ++ []) none := by
        rw [append_nil]
        exact hfifo.chain
      refine walk_seg _ hchain (fun b hb => ?_) (by simp) (length_lt_queueFuel hfifo.nodup)
      simpa using fun hbt => ht q (hfifo.chain.next_mem hb hbt)
    simp only [hhead, if_false]
    rw [bind_of_some hwalk]
    rfl

/-- **`dequeue_task`** takes the task out of the queue it is in, if any. -/
theorem Queues.dequeue (h : Queues s Q) (hcur : ∀ q, t ∈ Q q → s.curQueueOf t = some q) :
    ∃ s', s.dequeueTask t = some s' ∧ Queues s' (without Q t) ∧ Moved Q s s' := by
  by_cases ht : ∃ q, t ∈ Q q
  · obtain ⟨q, hq⟩ := ht
    obtain ⟨l1, l2, hsplit⟩ := append_of_mem hq
    rcases eq_nil_or_concat' l1 with rfl | ⟨l, c, rfl⟩
    · exact h.dequeue_head hsplit (hcur q hq)
    · exact h.dequeue_inner hsplit (hcur q hq)
  · have ht : ∀ q, t ∉ Q q := fun q hq => ht ⟨q, hq⟩
    refine ⟨s, h.dequeue_absent ht, ?_, .refl Q s⟩
    rw [without_eq_self ht]
    exact h

/-! ## `pick_next_task` -/

/-- Moving the head of a queue with several tasks to its end. -/
theorem Queues.moveToTail (h : Queues s Q) (hq : Q q = t :: l) (hne : l ≠ []) :
    ∃ s', s.moveToTail q t = some s' ∧ Queues s' (update Q q (l ++ [t])) ∧
      Moved Q s s' := by
  have hfifo : Fifo s.nextOf (s.rqHead q) (s.rqTail q) (t :: l) := hq ▸ h.fifo q
  obtain ⟨tail, htail⟩ : ∃ tail, s.rqTail q = some tail := by
    rw [hfifo.tail]
    exact ⟨_, getLast?_eq_some_getLast (cons_ne_nil t l)⟩
  have hmem : tail ∈ l := by
    have hlast := hfifo.tail
    obtain ⟨b, l, rfl⟩ := exists_cons_of_ne_nil hne
    rw [htail, getLast?_cons_cons] at hlast
    exact mem_of_mem_getLast? hlast.symm
  have htl := (nodup_cons.mp hfifo.nodup).1
  have htt : tail ≠ t := fun e => htl (e ▸ hmem)
  set s1 := ((((s.setHead q (s.nextOf t)).setNext tail (some t)).setTail q (some t)).setNext t
    none) with hs1
  have hnext : ∀ p, s1.nextOf p =
      if p = t then none else if p = tail then some t else s.nextOf p := fun p => by
    rw [hs1, nextOf_setNext, nextOf_setTail, nextOf_setNext, nextOf_setHead]
  have hhead : ∀ q', s1.rqHead q' = if q' = q then s.nextOf t else s.rqHead q' := fun q' => by
    rw [hs1, rqHead_setNext, rqHead_setTail, rqHead_setNext, rqHead_setHead]
  have htail1 : ∀ q', s1.rqTail q' = if q' = q then some t else s.rqTail q' := fun q' => by
    rw [hs1, rqTail_setNext, rqTail_setTail, rqTail_setNext, rqTail_setHead]
  have hout : ∀ p, p ∉ Q q → s1.nextOf p = s.nextOf p := by
    intro p hp
    have hnot : ∀ d ∈ t :: l, p ≠ d := by
      rintro d hd rfl
      exact hp (hq ▸ hd)
    rw [hnext, if_neg (hnot t mem_cons_self),
      if_neg (hnot tail (mem_cons_of_mem _ hmem))]
  refine ⟨s1, bind_of_some htail _, h.rearrange (fun p hp => ?_) ?_ (fun q' hne => ?_)
    (fun q' hne => ?_) hout, ⟨by simp [hs1], fun p => by simp [hs1]⟩, fun p hp => hout p (hp q)⟩
  · rw [hq]
    simpa [or_comm] using hp
  · rw [hhead, htail1, if_pos rfl, if_pos rfl]
    refine hfifo.rotate _ hne (by rw [hnext, if_pos rfl]) (fun b hb => ?_) (fun b hb hbt => ?_)
    · rw [htail] at hb
      cases hb
      rw [hnext, if_neg htt, if_pos rfl]
    · rw [hnext, if_neg (by rintro rfl; exact htl hb), if_neg (by rintro rfl; exact hbt htail)]
  · rw [hhead, if_neg hne]
  · rw [htail1, if_neg hne]

variable {pre post : List TaskPtr}

/-- The loop over exhausted tasks stops at the first one with quota left; those it passed are
at the end of the queue. -/
theorem Queues.skipDone (h : Queues s Q) {c : TaskPtr} {fuel : ℕ} (hq : Q q = pre ++ t :: post)
    (hpre : ∀ p ∈ pre, (s.task p).quotaDone) (ht : (s.task t).quotaDone = false)
    (hc : s.rqHead q = some c) (hfuel : pre.length < fuel) :
    ∃ s', skipDone fuel s q c = some (t, s') ∧
      Queues s' (update Q q (t :: post ++ pre)) ∧ Moved Q s s' := by
  -- each round moves the first task of `pre` behind `post`
  induction pre generalizing s Q c fuel post with
  | nil =>
    obtain ⟨n, rfl⟩ := Nat.exists_eq_add_of_lt hfuel
    rw [(h.fifo q).head_eq, hq] at hc
    cases hc
    refine ⟨s, ?_, ?_, .refl Q s⟩
    · rw [skipDone, if_neg (by simp [ht])]
    · rw [append_nil, ← nil_append (t :: post), ← hq, update_eq_self]
      exact h
  | cons d pre ih =>
    obtain ⟨n, rfl⟩ := Nat.exists_eq_add_of_lt hfuel
    rw [(h.fifo q).head_eq, hq] at hc
    obtain rfl : d = c := Option.some.inj hc
    obtain ⟨s1, hmove, hQ1, hr1⟩ :=
      h.moveToTail (show Q q = d :: (pre ++ t :: post) from hq) (by simp)
    have hq1 : update Q q (pre ++ t :: post ++ [d]) q = pre ++ t :: (post ++ [d]) := by
      rw [update_self, append_assoc, cons_append]
    obtain ⟨c1, hc1⟩ : ∃ c1, s1.rqHead q = some c1 := by
      rw [(hQ1.fifo q).head_eq, hq1]
      cases pre <;> exact ⟨_, rfl⟩
    obtain ⟨s2, hskip, hQ2, hr2⟩ := ih hQ1 hq1
      (fun p hp => by rw [quotaDone_eq hr1.body]; exact hpre p (mem_cons_of_mem _ hp))
      (by rw [quotaDone_eq hr1.body]; exact ht) hc1
      (show pre.length < (d :: pre).length + n by simp; omega)
    refine ⟨s2, ?_, ?_, hr1.trans hr2 fun p hp => ?_⟩
    · rw [skipDone, if_pos (hpre d mem_cons_self), bind_of_some hmove,
        bind_of_some hc1, hskip]
    · rw [update_idem] at hQ2
      simpa using hQ2
    · rw [hq]
      simp at hp ⊢
      tauto

/-- The queue after `t` was picked: a sole task leaves it, one among others goes to its end. -/
def turn (pre : List TaskPtr) (t : TaskPtr) (post : List TaskPtr) : List TaskPtr :=
  if post ++ pre = [] then [] else post ++ pre ++ [t]

/-- Nothing to run in a queue. -/
def AllDone (s : Sched) (l : List TaskPtr) : Prop := ∀ p ∈ l, (s.task p).quotaDone

instance (s : Sched) (l : List TaskPtr) : Decidable (AllDone s l) :=
  inferInstanceAs (Decidable (∀ p ∈ l, _))

/-- A queue that holds a task with quota left has a first one. -/
theorem exists_first (s : Sched) (l : List TaskPtr) :
    AllDone s l ∨ ∃ pre t post, l = pre ++ t :: post ∧ AllDone s pre ∧
      (s.task t).quotaDone = false := by
  obtain ⟨pre, rest, rfl, hpre, hrest⟩ := exists_walk_split (fun p => !(s.task p).quotaDone) l
  have hpre : AllDone s pre := fun p hp => by simpa using hpre p hp
  cases rest with
  | nil =>
    rw [append_nil]
    exact .inl hpre
  | cons t post =>
    exact .inr ⟨pre, t, post, rfl, hpre, by simpa using hrest t rfl⟩

/-- The probe for a task with quota left. -/
theorem Queues.probe (h : Queues s Q) {rest : List TaskPtr} (hq : Q q = pre ++ rest)
    (hpre : AllDone s pre) (hrest : ∀ p ∈ rest.head?, (s.task p).quotaDone = false) :
    walk s.nextOf (fun p => !(s.task p).quotaDone) queueFuel none (s.rqHead q) =
      some (pre.getLast?.or none, rest.head?) := by
  have hfifo := h.fifo q
  rw [hq] at hfifo
  refine walk_seg _ hfifo.chain (fun p hp => by simp [hpre p hp])
    (fun p hp => by simp [hrest p hp]) ?_
  have := length_lt_queueFuel hfifo.nodup
  simp only [length_append] at this
  omega

/-- One queue of `pick_next_task` without anything to run. -/
theorem Queues.pickQueue_none (h : Queues s Q) (hdone : AllDone s (Q q)) :
    s.pickQueue q = some (none, s) := by
  have hprobe := h.probe (append_nil (Q q)).symm hdone (by simp)
  unfold pickQueue
  cases hhead : s.rqHead q with
  | none => rfl
  | some c =>
    rw [hhead] at hprobe
    exact bind_of_some hprobe _

/-- One queue of `pick_next_task` with something to run. -/
theorem Queues.pickQueue_some (h : Queues s Q) (hq : Q q = pre ++ t :: post)
    (hpre : AllDone s pre) (ht : (s.task t).quotaDone = false) :
    ∃ s', s.pickQueue q = some (some t, s') ∧
      Queues s' (update Q q (turn pre t post)) ∧ Moved Q s s' := by
  have hprobe := h.probe hq hpre (by simpa using ht)
  have hlen : pre.length < queueFuel := by
    have := length_lt_queueFuel (h.fifo q).nodup
    rw [hq, length_append] at this
    omega
  obtain ⟨c, hc⟩ : ∃ c, s.rqHead q = some c := by
    rw [(h.fifo q).head_eq, hq]
    cases pre <;> exact ⟨_, rfl⟩
  obtain ⟨s1, hskip, hQ1, hr1⟩ := h.skipDone hq hpre ht hc hlen
  rw [hc] at hprobe
  have heval : s.pickQueue q = (match s1.nextOf t with
      | some _ => do
        let s ← s1.moveToTail q t
        return (some t, s)
      | none => return (some t, (s1.setHead q none).setTail q none)) := by
    unfold pickQueue
    simp only [hc]
    rw [bind_of_some hprobe]
    exact bind_of_some hskip _
  have hfifo : Fifo s1.nextOf (s1.rqHead q) (s1.rqTail q) (t :: (post ++ pre)) := by
    have := hQ1.fifo q
    rwa [update_self] at this
  have hnext : s1.nextOf t = (post ++ pre).head? := hfifo.chain.2.head_eq
  rw [heval]
  have hsub : ∀ p ∈ t :: post ++ pre, p ∈ Q q := fun p hp => by
    rw [hq]
    simpa [or_comm, or_assoc, or_left_comm] using hp
  by_cases hnil : post ++ pre = []
  · rw [hnext, hnil, turn, if_pos hnil]
    refine ⟨_, rfl, ?_, hr1.trans ⟨⟨by simp, fun p => by simp⟩, fun _ _ => rfl⟩ hsub⟩
    suffices hQ : Queues ((s1.setHead q none).setTail q none)
        (update (update Q q (t :: post ++ pre)) q []) by
      rwa [update_idem] at hQ
    refine hQ1.rearrange (l := []) (fun _ hp => by cases hp) ⟨?_, ?_⟩ (fun q' hne => ?_)
      (fun q' hne => ?_)
      fun _ _ => rfl
    · simp [rqHead_setHead, seg_nil]
    · simp [rqTail_setTail]
    · simp [rqHead_setHead, hne]
    · simp [rqTail_setTail, hne]
  · obtain ⟨b, l, hbl⟩ := exists_cons_of_ne_nil hnil
    obtain ⟨s2, hmove, hQ2, hr2⟩ := hQ1.moveToTail
      (show update Q q (t :: post ++ pre) q = t :: (post ++ pre) by
        rw [update_self]; rfl) hnil
    rw [hnext, hbl]
    refine ⟨s2, bind_of_some hmove _, ?_, hr1.trans hr2 hsub⟩
    rw [turn, if_neg hnil]
    rwa [update_idem] at hQ2

variable {qs : List (Fin nrQueues)}

/-- The loop over queues finds nothing. -/
theorem Queues.pickFrom_none (h : Queues s Q) (hdone : ∀ q ∈ qs, AllDone s (Q q)) :
    s.pickFrom qs = some (none, s) := by
  induction qs with
  | nil => rfl
  | cons q qs ih =>
    rw [pickFrom, bind_of_some (h.pickQueue_none (hdone q mem_cons_self))]
    exact ih fun q' hq' => hdone q' (mem_cons_of_mem _ hq')

/-- The first task with quota left, in the order of the given queues. -/
def FirstReady (s : Sched) (Q : Fin nrQueues → List TaskPtr) (qs : List (Fin nrQueues))
    (q : Fin nrQueues) (pre : List TaskPtr) (t : TaskPtr) (post : List TaskPtr) : Prop :=
  (∃ before after, qs = before ++ q :: after ∧ ∀ q' ∈ before, AllDone s (Q q')) ∧
    Q q = pre ++ t :: post ∧ AllDone s pre ∧ (s.task t).quotaDone = false

/-- There is a first task with quota left, unless there is none at all. -/
theorem exists_firstReady (s : Sched) (Q : Fin nrQueues → List TaskPtr)
    (qs : List (Fin nrQueues)) :
    (∀ q ∈ qs, AllDone s (Q q)) ∨ ∃ q pre t post, FirstReady s Q qs q pre t post := by
  induction qs with
  | nil => exact .inl (by simp)
  | cons q qs ih =>
    rcases exists_first s (Q q) with hdone | ⟨pre, t, post, hq, hpre, ht⟩
    · rcases ih with hrest | ⟨q', pre, t, post, ⟨before, after, rfl, hbefore⟩, hq'⟩
      · exact .inl (by simpa using ⟨hdone, hrest⟩)
      · exact .inr ⟨q', pre, t, post, ⟨q :: before, after, rfl, by simpa using ⟨hdone, hbefore⟩⟩,
          hq'⟩
    · exact .inr ⟨q, pre, t, post, ⟨[], qs, rfl, by simp⟩, hq, hpre, ht⟩

/-- The loop of `pick_next_task` picks the first task with quota left. -/
theorem Queues.pickFrom (h : Queues s Q) (hfirst : FirstReady s Q qs q pre t post) :
    ∃ s', s.pickFrom qs = some (some t, s') ∧
      Queues s' (update Q q (turn pre t post)) ∧ Moved Q s s' := by
  obtain ⟨⟨before, after, rfl, hbefore⟩, hq, hpre, ht⟩ := hfirst
  obtain ⟨s', hpick, hQ, hr⟩ := h.pickQueue_some hq hpre ht
  refine ⟨s', ?_, hQ, hr⟩
  induction before with
  | nil =>
    rw [nil_append, pickFrom, bind_of_some hpick]
    rfl
  | cons q' before ih =>
    rw [cons_append, pickFrom,
      bind_of_some (h.pickQueue_none (hbefore q' mem_cons_self))]
    exact ih fun q' hq' => hbefore q' (mem_cons_of_mem _ hq')

/-- `peek_next_task` finds nothing. -/
theorem Queues.peekFrom_none (h : Queues s Q) (hdone : ∀ q ∈ qs, AllDone s (Q q)) :
    s.peekFrom qs = some none := by
  induction qs with
  | nil => rfl
  | cons q qs ih =>
    rw [peekFrom, bind_of_some (h.probe (append_nil (Q q)).symm
      (hdone q mem_cons_self) (by simp))]
    exact ih fun q' hq' => hdone q' (mem_cons_of_mem _ hq')

/-- **`peek_next_task` sees the task `pick_next_task` would pick.** -/
theorem Queues.peekFrom (h : Queues s Q) (hfirst : FirstReady s Q qs q pre t post) :
    s.peekFrom qs = some (some t) := by
  obtain ⟨⟨before, after, rfl, hbefore⟩, hq, hpre, ht⟩ := hfirst
  induction before with
  | nil =>
    rw [nil_append, peekFrom, bind_of_some (h.probe hq hpre (by simpa using ht))]
    rfl
  | cons q' before ih =>
    rw [cons_append, peekFrom, bind_of_some (h.probe (append_nil (Q q')).symm
      (hbefore q' mem_cons_self) (by simp))]
    exact ih fun q' hq' => hbefore q' (mem_cons_of_mem _ hq')

end Sched

end PokuOS
