import PokuOS.Inherit
import PokuOS.SchedRun

/-!
# Mutual exclusion and wait queues

A mutex has at most one owner, the tasks blocked in `mutex_lock` are the ones linked from its
`waitq`, and a free mutex with waiters has one on its way to test it again. The invariant
(`Guarded`) has a list for every wait queue. A task is added when it has left the run queues, so
the lists stay apart from them, and what `schedule` and the timer do stops at the run queues
(`Poised.parked`); this also covers a timer interrupt between the `sti` of `mutex_lock` and its own
call of `schedule`, where the running task already waits (`Poised`).

Blocking relies on `dequeue_task` to take the running task out of the run queues. It does not
once `schedule` has enqueued a queued task.
-/

namespace PokuOS

open Function List LockState

namespace Sched

variable {P P' : TaskPtr → Option TaskPtr → Prop} {W E : Set TaskPtr} {s s0 : Sched} {t : TaskPtr}

/-- The tasks `W` are parked with the links they have in `s`. -/
def waitersOf (W : Set TaskPtr) (s : Sched) : TaskPtr → Option TaskPtr → Prop :=
  fun t n => t ∈ W ∧ s.nextOf t = n

/-- They wait, and keep their links. -/
theorem Poised.parked (h : Poised (waitersOf W s0) E s) (ht : t ∈ W) :
    (s.task t).state = .waiting ∧ s.nextOf t = s0.nextOf t := by
  obtain ⟨Q, hsound⟩ := h.sound
  exact (hsound.tasks t).parked _ ⟨ht, rfl⟩

/-- Whoever waits can be parked. -/
theorem Poised.park (h : Poised P E s)
    (hP : ∀ t n, P' t n → (s.task t).state = .waiting ∧ s.nextOf t = n) : Poised P' E s := by
  obtain ⟨Q, hsound⟩ := h.sound
  exact ⟨⟨Q, hsound.park hP⟩, h.only, h.current⟩

/-- The running task does not wait. -/
theorem Stable.awake (h : Stable P s) : (s.task s.currentTask).state ≠ .waiting := by
  obtain ⟨Q, hsound⟩ := h
  intro hwait
  have hidle := ((hsound.tasks _).waiting hwait).1
  rcases ((hsound.tasks _).excepted hidle rfl).2 with hs | hs <;> exact nomatch hwait.symm.trans hs

theorem Poised.boost (h : Poised P E s) (ht : t ≠ .idle) (tier : Tier) :
    Post (s.boost t tier) (Poised P E) := by
  have hsave : Poised P E (s.modify t fun task =>
      if task.inherited then task else { task with savedTier := task.tier }) :=
    h.modify_other fun task => by split <;> rfl
  exact (Post.of_exists (hsave.taskSetTier (.inl ht) tier)).bind fun s1 h1 =>
    .some (h1.modify_other fun _ => rfl)

theorem Poised.restore (h : Poised P E s) (ht : t ≠ .idle) : Post (s.restore t) (Poised P E) := by
  have hflag : Poised P E (s.modify t fun task => { task with inherited := false }) :=
    h.modify_other fun _ => rfl
  exact (Post.of_exists (hflag.taskSetTier (.inl ht) _)).bind fun s1 h1 =>
    .some (h1.modify_other fun _ => rfl)

/-- **Blocking** takes the running task out of the run queues and links it to `waitq`. -/
theorem Stable.block (h : Stable P s) (hidle : s.currentTask ≠ .idle) (waitq : Option TaskPtr) :
    Post (s.block waitq) fun s' => Poised P ∅ s' ∧ s'.currentTask = s.currentTask ∧
      (s'.task s.currentTask).state = .waiting ∧ s'.nextOf s.currentTask = waitq := by
  obtain ⟨Q, hsound⟩ := h
  obtain ⟨s1, hdeq, hsound1, habs, hr⟩ := hsound.dequeue rfl
  have hcur : s1.currentTask = s.currentTask := currentTask_eq hr.body
  rw [← insert_empty_eq] at hsound1
  have hstop : Sound P (s1.setState s.currentTask .waiting) (without Q s.currentTask) ∅ :=
    hsound1.stop habs hidle (.inl rfl) rfl (Set.notMem_empty _)
  have hwait : ((s1.setState s.currentTask .waiting).task s.currentTask).state = .waiting := by
    unfold Sched.setState
    rw [task_modify, if_pos rfl]
  have hparked := (hsound.tasks s.currentTask).not_parked rfl
  have hlink : Sound P ((s1.setState s.currentTask .waiting).setNext s.currentTask waitq)
      (without Q s.currentTask) ∅ :=
    hstop.queues.sound_modify (fun p _ => hstop.tasks p) (fun q hq => absurd hq (habs q))
      ((hstop.tasks _).congr (fun n hn => absurd hn (hparked n)) rfl rfl rfl
        (fun _ _ => rfl) fun _ => rfl)
  have hstate := (state_eq (body_setNext (s1.setState s.currentTask .waiting) s.currentTask
    waitq) s.currentTask).trans hwait
  intro s' hs'
  rw [Sched.block, bind_of_some hdeq] at hs'
  cases hs'
  refine ⟨⟨⟨_, hlink⟩, Set.empty_subset _, .inr ?_⟩, hcur, hstate, ?_⟩
  · change ((((s1.setState s.currentTask .waiting).setNext s.currentTask waitq)).task
      s1.currentTask).state = .waiting
    rw [hcur]
    exact hstate
  · rw [nextOf_setNext, if_pos rfl]

/-- **Waking** puts a waiting task into its run queue. -/
theorem Stable.wake (h : Stable P s) (hwait : (s.task t).state = .waiting)
    (hparked : ∀ n, ¬P t n) : Stable P (s.wake t) := by
  obtain ⟨Q, hsound⟩ := h
  obtain ⟨hidle, hinUse⟩ := (hsound.tasks t).waiting hwait
  obtain ⟨-, habs⟩ := hsound.absent hidle (by rw [hwait]; nofun) (by rw [hwait]; nofun)
  obtain ⟨Q', hstart⟩ := hsound.start (f := fun task => { task with next := none, state := .ready })
    habs hidle hparked rfl hinUse
  unfold Sched.wake Sched.setState Sched.setNext
  rw [modify_modify]
  exact hstart.stable enqueueTask_currentTask

end Sched

/-! ## Owners and waiters -/

namespace LockState

variable {ι : Type}

/-- The task was woken by an unlock of `m` and has not tested `m` since. -/
def WokenIn (st : LockState ι) (m : ι) (t : TaskPtr) : Prop :=
  ∃ called, st.pc t = .inLock m true called

/-- The tasks blocked in some `mutex_lock`. -/
def blockedTasks (st : LockState ι) : Set TaskPtr := {t | ∃ m, st.BlockedIn m t}

end LockState

/-- The tasks between a successful lock of a mutex and their unlock of it, after an event that
leads from `st` to `st'`. `mutex_lock` has succeeded when the task is back outside. -/
def LockEvent.owners {ι : Type} [DecidableEq ι] (st st' : LockState ι)
    (owners : ι → List TaskPtr) : LockEvent ι → ι → List TaskPtr
  | lock m => if st'.pc st.sched.currentTask = .outside then
      update owners m (st.sched.currentTask :: owners m) else owners
  | trylock m => if (st.mutexTrylock m).1 then
      update owners m (st.sched.currentTask :: owners m) else owners
  | retest => match st.pc st.sched.currentTask with
    | .outside => owners
    | .inLock m _ _ => if st'.pc st.sched.currentTask = .outside then
        update owners m (st.sched.currentTask :: owners m) else owners
  | unlock m => update owners m ((owners m).erase st.sched.currentTask)
  | _ => owners

/-- The state of the mutexes, with the owners of each. -/
structure OwnerState (ι : Type) where
  /-- tasks and mutexes -/
  lock : LockState ι
  /-- who is between a successful lock and its unlock -/
  owners : ι → List TaskPtr

/-- Tasks that use mutexes and unlock only what they hold. -/
def mutexSystem (ι : Type) [DecidableEq ι] : System (OwnerState ι) (LockEvent ι) where
  init st := (lockSystem ι).init st.lock ∧ ∀ m, st.owners m = []
  allowed st e := (lockSystem ι).allowed st.lock e ∧
    ∀ m, e = .unlock m → (st.lock.mutex m).holder = some st.lock.sched.currentTask
  step st e := (e.apply st.lock).map fun st' => ⟨st', e.owners st.lock st' st.owners⟩

/-- **Mutex safety.** -/
structure MutexSafe {ι : Type} (st : OwnerState ι) : Prop where
  /-- a mutex is locked iff it has a holder -/
  locked : ∀ m, (st.lock.mutex m).locked = true ↔ (st.lock.mutex m).holder ≠ none
  /-- the holder and nobody else is between a successful lock and its unlock -/
  owners : ∀ m, st.owners m = (st.lock.mutex m).holder.toList
  /-- the wait queue is a list of the blocked tasks, each once -/
  waitq : ∀ m, ∃ W : List TaskPtr, Seg st.lock.sched.nextOf (st.lock.mutex m).waitq W none ∧
    W.Nodup ∧ ∀ t, t ∈ W ↔ st.lock.BlockedIn m t
  /-- blocked tasks wait -/
  waiting : ∀ m t, st.lock.BlockedIn m t → (st.lock.sched.task t).state = .waiting
  /-- they are in no run queue -/
  unqueued : ∀ m t, st.lock.BlockedIn m t → ∀ q, t ∉ st.lock.sched.queueOf q
  /-- and in no other wait queue -/
  apart : ∀ m t, st.lock.BlockedIn m t → ∀ m', m' ≠ m → ∀ W : List TaskPtr,
    Seg st.lock.sched.nextOf (st.lock.mutex m').waitq W none → t ∉ W
  /-- a free mutex with waiters has one that was woken and has not tested it since -/
  woken : ∀ m, (st.lock.mutex m).locked = false → (st.lock.mutex m).waitq ≠ none →
    ∃ t, st.lock.WokenIn m t

/-- The invariant, with the lists of the wait queues. -/
structure Guarded {ι : Type} (st : LockState ι) (owners : ι → List TaskPtr)
    (W : ι → List TaskPtr) : Prop where
  /-- the run queues are sound -/
  poised : ∃ E, Sched.Poised nobody E st.sched
  /-- the running task waits only when it is blocked -/
  awake : st.sched.currentTask ∉ st.blockedTasks →
    (st.sched.task st.sched.currentTask).state ≠ .waiting
  /-- and then it has not called `schedule` yet -/
  fresh : ∀ m called, st.pc st.sched.currentTask = .inLock m false called → called = false
  /-- the idle task uses no mutex -/
  idle : st.pc .idle = .outside
  /-- a mutex is locked iff it has a holder -/
  locked : ∀ m, (st.mutex m).locked = true ↔ (st.mutex m).holder ≠ none
  /-- the idle task holds nothing -/
  holder : ∀ m t, (st.mutex m).holder = some t → t ≠ .idle
  /-- the holder is the owner -/
  owners : ∀ m, owners m = (st.mutex m).holder.toList
  /-- the wait queues -/
  chain : ∀ m, Seg st.sched.nextOf (st.mutex m).waitq (W m) none
  /-- hold the blocked tasks -/
  blocked : ∀ m t, t ∈ W m ↔ st.BlockedIn m t
  /-- which wait -/
  waiting : ∀ t ∈ st.blockedTasks, (st.sched.task t).state = .waiting
  /-- a free mutex with waiters has one on its way -/
  woken : ∀ m, (st.mutex m).locked = false → (st.mutex m).waitq ≠ none → ∃ t, st.WokenIn m t

namespace Guarded

variable {ι : Type} {st : LockState ι} {owners : ι → List TaskPtr} {W : ι → List TaskPtr} {m : ι}

theorem init [DecidableEq ι] (h : (lockSystem ι).init st) :
    Guarded st (fun _ => []) fun _ => [] := by
  obtain ⟨⟨pageDirectory, hsched⟩, hmutex, hpc, -⟩ := h
  have hstable : Sched.Stable nobody st.sched := hsched ▸ Sched.stable_taskInit pageDirectory
  have hno : ∀ m t, ¬ st.BlockedIn m t := fun m t ⟨_, ht⟩ => nomatch (hpc t).symm.trans ht
  refine ⟨⟨_, hstable.poised⟩, fun _ => hstable.awake, fun m _ hm => ?_, hpc _, fun m => ?_,
    fun m t hm => ?_, fun m => ?_, fun m => (hmutex m).2.2, fun m t => ?_,
    fun t ⟨m, hm⟩ => absurd hm (hno m t),
    fun m _ hq => absurd (hmutex m).2.2 hq⟩
  · cases (hpc _).symm.trans hm
  · rw [(hmutex m).1, (hmutex m).2.1]
    simp
  · cases (hmutex m).2.1.symm.trans hm
  · rw [(hmutex m).2.1]
    rfl
  · exact ⟨fun ht => absurd ht not_mem_nil, fun ht => absurd ht (hno m t)⟩

/-- Where the running task is when it tests `m`: outside, or woken for `m`. -/
def Testing (st : LockState ι) (m : ι) : Prop :=
  st.sched.currentTask ≠ .idle ∧
    (st.pc st.sched.currentTask = .outside ∨ st.WokenIn m st.sched.currentTask)

theorem Testing.not_blocked (h : Testing st m) : st.sched.currentTask ∉ st.blockedTasks := by
  rintro ⟨m', called, hpc⟩
  rcases h.2 with hout | ⟨called', hwoken⟩
  · cases hout.symm.trans hpc
  · cases hwoken.symm.trans hpc

/-- It is not the one that is on its way to another mutex. -/
theorem Testing.ne_of_wokenIn (h : Testing st m) {m' : ι} (hne : m' ≠ m) {t : TaskPtr}
    (ht : st.WokenIn m' t) : t ≠ st.sched.currentTask := by
  rintro rfl
  obtain ⟨called, hpc⟩ := ht
  rcases h.2 with hout | ⟨called', hwoken⟩
  · cases hout.symm.trans hpc
  · have heq := hwoken.symm.trans hpc
    simp only [LockPc.inLock.injEq] at heq
    exact hne heq.1.symm

variable (h : Guarded st owners W)
include h

/-- **What the invariant says of a state.** -/
theorem safe : MutexSafe ⟨st, owners⟩ := by
  obtain ⟨E, hpoised⟩ := h.poised
  obtain ⟨Q, hsound⟩ := hpoised.sound
  refine ⟨h.locked, h.owners, fun m => ⟨W m, h.chain m, (h.chain m).nodup, h.blocked m⟩,
    fun m t ht => h.waiting t ⟨m, ht⟩, fun m t ht q => ?_, fun m t ht m' hne W' hW' hmem => ?_,
    h.woken⟩
  · have hwait := h.waiting t ⟨m, ht⟩
    rw [hsound.queues.queueOf_eq]
    exact (hsound.absent ((hsound.tasks t).waiting hwait).1 (by rw [hwait]; nofun)
      (by rw [hwait]; nofun)).2 q
  · obtain rfl := Seg.unique hW' (h.chain m')
    obtain ⟨_, hm⟩ := ht
    obtain ⟨_, hm'⟩ := (h.blocked m' t).mp hmem
    have heq := hm.symm.trans hm'
    simp only [LockPc.inLock.injEq] at heq
    exact hne heq.1.symm

theorem parked :
    ∃ E, Sched.Poised (Sched.waitersOf st.blockedTasks st.sched) E st.sched := by
  obtain ⟨E, hpoised⟩ := h.poised
  exact ⟨E, hpoised.park fun t _ hn => ⟨h.waiting t hn.1, hn.2⟩⟩

/-- A running task that is not blocked is the exception of the run queues. -/
theorem stable (hcur : st.sched.currentTask ∉ st.blockedTasks) :
    Sched.Stable (Sched.waitersOf st.blockedTasks st.sched) st.sched := by
  obtain ⟨E, hpoised⟩ := h.parked
  exact hpoised.stable_of_awake (h.awake hcur)

/-! ## Scheduling -/

section

variable {s : Sched} (pc : TaskPtr → LockPc ι) {E : Set TaskPtr}
  (hpc : ∀ t m woken, (∃ called, pc t = .inLock m woken called) ↔
    ∃ called, st.pc t = .inLock m woken called)
include hpc

/-- **Whatever leaves the parked tasks alone and ends with sound queues** keeps the invariant;
of where the tasks are, it does not matter whether they have called `schedule`. -/
theorem resched (startTier : TaskPtr → Tier)
    (hpoised : Sched.Poised (Sched.waitersOf st.blockedTasks st.sched) E s)
    (hawake : s.currentTask ∉ st.blockedTasks → (s.task s.currentTask).state ≠ .waiting)
    (hfresh : ∀ m called, pc s.currentTask = .inLock m false called → called = false) :
    Guarded ⟨s, st.mutex, pc, startTier⟩ owners W := by
  have hblocked : ∀ t, t ∈ blockedTasks ⟨s, st.mutex, pc, startTier⟩ ↔
      t ∈ st.blockedTasks := fun t => exists_congr fun m => hpc t m false
  have hidle : pc .idle = .outside := by
    cases hpc' : pc .idle with
    | outside => rfl
    | inLock m woken called =>
      obtain ⟨_, hin⟩ := (hpc .idle m woken).mp ⟨called, hpc'⟩
      cases h.idle.symm.trans hin
  refine ⟨⟨E, hpoised.park nofun⟩, fun hcur => hawake ((hblocked _).not.mp hcur), hfresh, hidle,
    h.locked, h.holder, h.owners, fun m => (h.chain m).congr fun t ht => ?_, fun m t => ?_,
    fun t ht => (hpoised.parked ((hblocked t).mp ht)).1, fun m hm hq => ?_⟩
  · exact (hpoised.parked ⟨m, (h.blocked m t).mp ht⟩).2
  · exact (h.blocked m t).trans (hpc t m false).symm
  · obtain ⟨t, ht⟩ := h.woken m hm hq
    exact ⟨t, (hpc t m true).mpr ht⟩

/-- **A call of `schedule`** ends with a running task that is not blocked. -/
theorem schedule (hs : Sched.Poised (Sched.waitersOf st.blockedTasks st.sched) E s)
    (hno : ¬ s.doubleEnqueue) :
    Post s.schedule fun s' => Guarded { st with sched := s', pc := pc } owners W := by
  refine (Post.of_exists (hs.entered.stable_schedule hno)).mono fun s' hstable => ?_
  refine h.resched pc hpc _ hstable.poised (fun _ => hstable.awake) fun m called hm => ?_
  have hwait := hstable.poised.parked ⟨m, (hpc _ m false).mp ⟨called, hm⟩⟩
  exact absurd hwait.1 hstable.awake

end

theorem create [DecidableEq ι] (fields : Task) : Guarded (st.create fields) owners W := by
  have hcur := Sched.createAndEnqueue_currentTask st.sched fields
  obtain ⟨E, hs⟩ := h.parked
  refine h.resched _ (fun _ _ _ => Iff.rfl) _ (hs.createAndEnqueue fields) (fun hne => ?_)
    (hcur ▸ h.fresh)
  exact ((h.stable (hcur ▸ hne)).poised.createAndEnqueue fields).stable.awake

/-! ## Locking -/

section Lock

variable [DecidableEq ι]

/-- **A free mutex is taken.** -/
theorem take (htest : Testing st m) (hm : (st.mutex m).locked = false) :
    Guarded (st.take m) (update owners m (st.sched.currentTask :: owners m)) W := by
  have hcur := htest.not_blocked
  have hpc : ∀ t, t ≠ st.sched.currentTask → (st.take m).pc t = st.pc t :=
    fun t ht => update_of_ne ht ..
  have hout : (st.take m).pc st.sched.currentTask = .outside := update_self ..
  have hnone : (st.mutex m).holder = none := by
    by_contra hne
    cases hm.symm.trans ((h.locked m).mpr hne)
  have hblocked : ∀ m' t, (st.take m).BlockedIn m' t ↔ st.BlockedIn m' t := by
    intro m' t
    by_cases ht : t = st.sched.currentTask
    · subst ht
      exact ⟨fun ⟨_, hb⟩ => (nomatch hout.symm.trans hb), fun hb => absurd ⟨m', hb⟩ hcur⟩
    · unfold LockState.BlockedIn
      rw [hpc t ht]
  have hwaitq : ∀ m', ((st.take m).mutex m').waitq = (st.mutex m').waitq := fun m' => by
    rw [mutex_take]
    split
    · rename_i heq
      rw [heq]
    · rfl
  refine ⟨h.poised, fun _ => h.awake hcur, fun m' _ hm' => (nomatch hout.symm.trans hm'),
    (hpc _ htest.1.symm).trans h.idle, fun m' => ?_, fun m' t hm' => ?_, fun m' => ?_, fun m' => ?_,
    fun m' t => ?_, fun t ht => ?_,
    fun m' hm' hq => ?_⟩
  · rw [mutex_take]
    split
    · simp
    · exact h.locked m'
  · rw [mutex_take] at hm'
    split at hm'
    · exact Option.some.inj hm' ▸ htest.1
    · exact h.holder m' t hm'
  · rw [mutex_take, update_apply]
    split
    · rw [h.owners m, hnone]
      rfl
    · exact h.owners m'
  · rw [hwaitq]
    exact h.chain m'
  · exact (h.blocked m' t).trans (hblocked m' t).symm
  · obtain ⟨m', hm'⟩ := ht
    exact h.waiting t ⟨m', (hblocked m' t).mp hm'⟩
  · rw [mutex_take] at hm' hq
    split at hm'
    · cases hm'
    · rename_i hne
      rw [if_neg hne] at hq
      obtain ⟨t, ht⟩ := h.woken m' hm' hq
      refine ⟨t, ?_⟩
      unfold LockState.WokenIn
      rw [hpc t (htest.ne_of_wokenIn hne ht)]
      exact ht

omit [DecidableEq ι] in
theorem inheritTier (hcur : st.sched.currentTask ∉ st.blockedTasks)
    (m : ι) : Post (st.inheritTier m)
      (Sched.Poised (Sched.waitersOf st.blockedTasks st.sched) {st.sched.currentTask}) := by
  have hs := (h.stable hcur).poised
  unfold LockState.inheritTier
  simp only
  split
  · exact .some hs
  · rename_i holder hholder
    split
    · exact hs.boost (h.holder m holder hholder) _
    · exact .some hs

omit [DecidableEq ι] in
theorem restoreTier (hcur : st.sched.currentTask ∉ st.blockedTasks)
    (m : ι) : Post (st.restoreTier m)
      (Sched.Poised (Sched.waitersOf st.blockedTasks st.sched) {st.sched.currentTask}) := by
  have hs := (h.stable hcur).poised
  unfold LockState.restoreTier
  split
  · exact .some hs
  · rename_i holder hholder
    split
    · exact hs.restore (h.holder m holder hholder)
    · exact .some hs

/-- **The running task is put in front of the wait queue of a locked mutex.** -/
theorem block (htest : Testing st m) (hm : (st.mutex m).locked = true)
    {s : Sched} (hpoised : Sched.Poised (Sched.waitersOf st.blockedTasks st.sched) ∅ s)
    (hcurrent : s.currentTask = st.sched.currentTask)
    (hwait : (s.task st.sched.currentTask).state = .waiting)
    (hlink : s.nextOf st.sched.currentTask = (st.mutex m).waitq) :
    Guarded { st with
      sched := s
      mutex := update st.mutex m
        { st.mutex m with waitq := some st.sched.currentTask }
      pc := update st.pc st.sched.currentTask (.inLock m false false) } owners
      (update W m (st.sched.currentTask :: W m)) := by
  set me := st.sched.currentTask with hme
  have hcur : me ∉ st.blockedTasks := htest.not_blocked
  have hnot : ∀ m', me ∉ W m' := fun m' hmem => hcur ⟨m', (h.blocked m' me).mp hmem⟩
  have hsame := fun m' => update_waitq st.mutex m m' me
  have hchain : ∀ m', Seg s.nextOf (st.mutex m').waitq (W m') none := fun m' =>
    (h.chain m').congr fun t ht => (hpoised.parked ⟨m', (h.blocked m' t).mp ht⟩).2
  have hpc : update st.pc me (.inLock m false false) s.currentTask =
      .inLock m false false := by
    rw [hcurrent, update_self]
  refine ⟨⟨∅, hpoised.park nofun⟩, fun hne => absurd ⟨m, false, hpc⟩ hne, fun m' called hm' => ?_,
    (update_of_ne htest.1.symm ..).trans h.idle, fun m' => ?_, fun m' t hm' => ?_,
    fun m' => ?_, fun m' => ?_, fun m' t => ?_, fun t ht => ?_, fun m' hm' hq => ?_⟩
  · have heq := hpc.symm.trans hm'
    simp only [LockPc.inLock.injEq] at heq
    exact heq.2.2.symm
  · simp only [(hsame m').1, (hsame m').2.1]
    exact h.locked m'
  · exact h.holder m' t ((hsame m').2.1.symm.trans hm')
  · exact (h.owners m').trans (congrArg _ (hsame m').2.1.symm)
  · by_cases heq : m' = m
    · subst heq
      simp only [update_self]
      exact ⟨rfl, hlink ▸ hchain m'⟩
    · simp only [update_of_ne heq]
      exact hchain m'
  · unfold LockState.BlockedIn
    by_cases ht : t = me
    · subst ht
      by_cases heq : m' = m
      · subst heq
        simp
      · simp [update_of_ne heq, hnot, Ne.symm heq]
    · simp only [update_of_ne ht]
      refine Iff.trans ?_ (h.blocked m' t)
      by_cases heq : m' = m
      · subst heq
        simp [ht]
      · rw [update_of_ne heq]
  · obtain ⟨m', called, hm'⟩ := ht
    by_cases ht : t = me
    · exact ht ▸ hwait
    · simp only [update_of_ne ht] at hm'
      exact (hpoised.parked ⟨m', called, hm'⟩).1
  · by_cases heq : m' = m
    · subst heq
      cases hm.symm.trans ((hsame m').1.symm.trans hm')
    · simp only [update_of_ne heq] at hm' hq
      obtain ⟨t, ht⟩ := h.woken m' hm' hq
      have hne : t ≠ me := htest.ne_of_wokenIn heq ht
      refine ⟨t, ?_⟩
      unfold LockState.WokenIn
      simp only [update_of_ne hne]
      exact ht

/-- **One round of `mutex_lock`**: the mutex is taken or the task blocks. -/
theorem mutexLock (htest : Testing st m) : Post (st.mutexLock m) fun st' => ∃ W', Guarded st'
      (if st'.pc st.sched.currentTask = .outside then
        update owners m (st.sched.currentTask :: owners m) else owners) W' := by
  have hcur := htest.not_blocked
  unfold LockState.mutexLock
  split
  · rename_i hm
    refine (h.inheritTier hcur m).bind fun s1 h1 => ?_
    have hcurrent : s1.currentTask = st.sched.currentTask :=
      (Set.singleton_subset_iff.mp h1.only).symm
    refine (h1.stable.block (hcurrent ▸ htest.1) _).bind ?_
    rintro s2 ⟨hpoised, hcurrent2, hwait, hlink⟩
    rw [hcurrent] at hcurrent2 hwait hlink
    have hin : update st.pc st.sched.currentTask (.inLock m false false)
        st.sched.currentTask ≠ .outside := by
      rw [update_self]
      nofun
    refine .some ⟨update W m (st.sched.currentTask :: W m), ?_⟩
    rw [if_neg hin]
    exact h.block htest hm hpoised hcurrent2 hwait hlink
  · rename_i hm
    have hout : (st.take m).pc st.sched.currentTask = .outside := update_self ..
    refine .some ⟨W, ?_⟩
    rw [if_pos hout]
    exact h.take htest (Bool.eq_false_iff.mpr hm)

/-- **A mutex is released by its holder**, and the first task of its wait queue, if any, is
woken. -/
theorem release (hholder : (st.mutex m).holder = some st.sched.currentTask) {s : Sched}
    (pc : TaskPtr → LockPc ι) (hidle : pc .idle = .outside) (waitq : Option TaskPtr)
    (l : List TaskPtr) (hstable : Sched.Stable
      (Sched.waitersOf {t | ∃ m', t ∈ update W m l m'} st.sched) s)
    (hchain : Seg st.sched.nextOf waitq l none)
    (hblocked : ∀ m' t, t ∈ update W m l m' ↔ ∃ called, pc t = .inLock m' false called)
    (hwoken : ∀ m' t, st.WokenIn m' t → ∃ called, pc t = .inLock m' true called)
    (hnew : waitq ≠ none → ∃ t called, pc t = .inLock m true called) :
    Guarded { st with
      sched := s
      mutex := update st.mutex m
        { st.mutex m with locked := false, holder := none, waitq := waitq }
      pc := pc } (update owners m ((owners m).erase st.sched.currentTask))
      (update W m l) := by
  have hpoised := hstable.poised
  refine ⟨⟨_, hpoised.park nofun⟩, fun _ => hstable.awake, fun m' called hm' => ?_, hidle,
    fun m' => ?_, fun m' t hm' => ?_, fun m' => ?_, fun m' => ?_, hblocked, fun t ht => ?_,
    fun m' hm' hq => ?_⟩
  · exact absurd (hpoised.parked ⟨m', (hblocked m' _).mpr ⟨called, hm'⟩⟩).1 hstable.awake
  · by_cases heq : m' = m
    · subst heq
      simp
    · simp only [update_of_ne heq]
      exact h.locked m'
  · by_cases heq : m' = m
    · subst heq
      simp at hm'
    · simp only [update_of_ne heq] at hm'
      exact h.holder m' t hm'
  · by_cases heq : m' = m
    · subst heq
      simp [h.owners m', hholder]
    · simp only [update_of_ne heq]
      exact h.owners m'
  · have hseg : Seg st.sched.nextOf (update st.mutex m
        { st.mutex m with locked := false, holder := none, waitq := waitq } m').waitq
        (update W m l m') none := by
      by_cases heq : m' = m
      · subst heq
        simpa using hchain
      · simp only [update_of_ne heq]
        exact h.chain m'
    exact hseg.congr fun t ht => (hpoised.parked ⟨m', ht⟩).2
  · obtain ⟨m', hm'⟩ := ht
    exact (hpoised.parked ⟨m', (hblocked m' t).mpr hm'⟩).1
  · by_cases heq : m' = m
    · subst heq
      simp only [update_self] at hq
      exact hnew hq
    · simp only [update_of_ne heq] at hm' hq
      obtain ⟨t, ht⟩ := h.woken m' hm' hq
      exact ⟨t, hwoken m' t ht⟩

/-- **`mutex_unlock`** by the holder. -/
theorem mutexUnlock (hout : st.pc st.sched.currentTask = .outside)
    (hholder : (st.mutex m).holder = some st.sched.currentTask) :
    Post (st.mutexUnlock m) fun st' => ∃ W', Guarded st'
      (update owners m ((owners m).erase st.sched.currentTask)) W' := by
  have hcur : st.sched.currentTask ∉ st.blockedTasks :=
    fun ⟨m', _, hpc⟩ => nomatch hout.symm.trans hpc
  refine (h.restoreTier hcur m).bind fun s1 h1 => ?_
  have hchain := h.chain m
  cases hq : (st.mutex m).waitq with
  | none =>
    rw [hq] at hchain
    have hnil : W m = [] := by simpa using hchain.head_eq.symm
    have hsame : update W m [] = W := by
      rw [← hnil, update_eq_self]
    refine .some ⟨update W m [], ?_⟩
    refine h.release hholder st.pc h.idle (st.mutex m).waitq []
      (h1.park fun t n hn => ?_).stable hq (fun m' t => ?_) (fun _ _ ht => ht)
      (fun hne => absurd hq hne)
    · obtain ⟨⟨m', hm'⟩, rfl⟩ := hn
      rw [hsame] at hm'
      exact h1.parked ⟨m', (h.blocked m' t).mp hm'⟩
    · rw [hsame]
      exact h.blocked m' t
  | some w =>
    obtain ⟨l, hl⟩ : ∃ l, W m = w :: l := by
      have hhead := hchain.head_eq
      rw [hq] at hhead
      exact head?_eq_some_iff.mp hhead.symm
    have hnodup := hchain.nodup
    rw [hl] at hchain hnodup
    obtain ⟨called, hpc⟩ : st.BlockedIn m w := (h.blocked m w).mp (by rw [hl]; simp)
    have hother : ∀ m', m' ≠ m → w ∉ W m' := by
      intro m' hne hmem
      obtain ⟨_, hpc'⟩ := (h.blocked m' w).mp hmem
      have heq := hpc.symm.trans hpc'
      simp only [LockPc.inLock.injEq] at heq
      exact hne heq.1.symm
    have hself : update st.pc w (st.pc w).wake w = .inLock m true called := by
      rw [update_self, hpc]
      rfl
    have hmem : ∀ m' t, t ∈ update W m l m' ↔ t ∈ W m' ∧ t ≠ w := by
      intro m' t
      by_cases heq : m' = m
      · subst heq
        rw [update_self, hl, mem_cons]
        exact ⟨fun ht => ⟨.inr ht, by rintro rfl; exact (nodup_cons.mp hnodup).1 ht⟩,
          fun ht => ht.1.resolve_left ht.2⟩
      · rw [update_of_ne heq]
        exact ⟨fun ht => ⟨ht, by rintro rfl; exact hother m' heq ht⟩, And.left⟩
    obtain ⟨hwait, hnext⟩ := h1.parked (t := w) ⟨m, called, hpc⟩
    have hidle : w ≠ .idle := fun hi => nomatch (hi ▸ hpc).symm.trans h.idle
    refine .some ⟨update W m l, ?_⟩
    refine h.release hholder _ ((update_of_ne hidle.symm ..).trans h.idle) _ l
      ((h1.park fun t n hn => ?_).stable.wake hwait ?_) (hnext ▸ hchain.2) (fun m' t => ?_)
      (fun m' t ht => ?_) fun _ => ⟨w, called, hself⟩
    · obtain ⟨⟨m', hm'⟩, rfl⟩ := hn
      exact h1.parked ⟨m', (h.blocked m' t).mp ((hmem m' t).mp hm').1⟩
    · rintro n ⟨⟨m', hm'⟩, -⟩
      exact ((hmem m' w).mp hm').2 rfl
    · rw [hmem]
      by_cases ht : t = w
      · subst ht
        rw [hself]
        simp
      · rw [update_of_ne ht, and_iff_left ht]
        exact h.blocked m' t
    · obtain ⟨called', hpc'⟩ := ht
      have hne : t ≠ w := by
        rintro rfl
        cases hpc.symm.trans hpc'
      exact ⟨called', (update_of_ne hne ..).trans hpc'⟩

end Lock

end Guarded

/-! ## Runs -/

namespace LockEvent

variable {ι : Type} [DecidableEq ι]

/-- The state in which the event calls `schedule`, if it does. -/
def entry (st : LockState ι) : LockEvent ι → Option Sched
  | tick => st.sched.pitHandler
  | yield => st.sched.yieldCurrent
  | schedule | callSchedule => some st.sched
  | _ => none

/-- The event does not call `schedule` in a state in which that enqueues a queued task. -/
def SchedulesSafely (st : LockState ι) (e : LockEvent ι) : Prop :=
  ∀ s, e.entry st = some s → ¬ s.doubleEnqueue

instance (st : LockState ι) (e : LockEvent ι) : Decidable (e.SchedulesSafely st) :=
  match h : e.entry st with
  | none => isTrue fun _ hs => nomatch h.symm.trans hs
  | some s => decidable_of_iff (¬ s.doubleEnqueue)
    ⟨fun hno _ hs => Option.some.inj (h.symm.trans hs) ▸ hno, fun hsafe => hsafe s h⟩

end LockEvent

namespace Guarded

variable {ι : Type} [DecidableEq ι] {st : LockState ι} {owners : ι → List TaskPtr}
  {W : ι → List TaskPtr}

/-- **One event keeps the invariant.** -/
theorem step (hu : Undone st) (h : Guarded st owners W) {e : LockEvent ι}
    (hallowed : (lockSystem ι).allowed st e)
    (hholder : ∀ m, e = .unlock m → (st.mutex m).holder = some st.sched.currentTask)
    (hsafe : e.SchedulesSafely st) :
    Post (e.apply st) fun st' => ∃ W', Guarded st' (e.owners st st' owners) W' := by
  obtain ⟨E, hs⟩ := h.parked
  cases e with
  | lock m => exact h.mutexLock ⟨hallowed.1, .inl hallowed.2.2⟩
  | trylock m =>
    refine .some ⟨W, ?_⟩
    unfold LockEvent.owners mutexTrylock
    simp only
    split
    · exact h
    · rename_i hm
      exact h.take ⟨hallowed.1, .inl hallowed.2.2⟩ (Bool.eq_false_iff.mpr hm)
  | unlock m => exact h.mutexUnlock hallowed.2.2 (hholder m rfl)
  | callSchedule =>
    change Post st.callSchedule _
    unfold callSchedule
    split
    · exact .none
    · rename_i m woken called hpc
      refine (h.schedule (update st.pc st.sched.currentTask (.inLock m woken true))
        (fun t m' woken' => ?_) hs (hsafe _ rfl)).bind fun s' h' => .some ⟨W, h'⟩
      by_cases ht : t = st.sched.currentTask
      · subst ht
        rw [update_self, hpc]
        simp
      · rw [update_of_ne ht]
  | retest =>
    change Post st.retest _
    unfold retest
    split
    · exact .none
    · rename_i m woken called hpc
      have hidle : st.sched.currentTask ≠ .idle := fun hi => by
        rw [hi, h.idle] at hpc
        cases hpc
      have hcalled : called = true := by
        have hinside : LockEvent.Inside st true := hallowed
        unfold LockEvent.Inside at hinside
        rwa [hpc] at hinside
      have hwoken : st.WokenIn m st.sched.currentTask := by
        cases woken with
        | true => exact ⟨called, hpc⟩
        | false => cases hcalled.symm.trans (h.fresh m called hpc)
      unfold LockEvent.owners
      rw [hpc]
      exact h.mutexLock ⟨hidle, .inr hwoken⟩
  | tick =>
    refine ((Post.of_exists (hs.pitHandler (hu.task _).kill)).and fun _ hs1 => hs1).bind ?_
    rintro s1 ⟨hs1, hpit⟩
    exact (h.schedule st.pc (fun _ _ _ => Iff.rfl) hs1 (hsafe s1 hpit)).bind
      fun s2 h2 => .some ⟨W, h2⟩
  | yield =>
    have hcur : st.sched.currentTask ∉ st.blockedTasks :=
      fun ⟨m', _, hpc⟩ => nomatch hallowed.2.2.symm.trans hpc
    refine ((Post.of_exists (h.stable hcur).yieldCurrent).and fun _ hs1 => hs1).bind ?_
    rintro s1 ⟨hstable, hyield⟩
    exact (h.schedule st.pc (fun _ _ _ => Iff.rfl) hstable.poised (hsafe s1 hyield)).bind
      fun s2 h2 => .some ⟨W, h2⟩
  | schedule =>
    exact (h.schedule st.pc (fun _ _ _ => Iff.rfl) hs (hsafe _ rfl)).bind
      fun s1 h1 => .some ⟨W, h1⟩
  | create fields => exact .some ⟨W, h.create fields⟩

end Guarded

/-- The same with `schedule` called only where it enqueues no queued task. -/
def safeMutexSystem (ι : Type) [DecidableEq ι] : System (OwnerState ι) (LockEvent ι) :=
  (mutexSystem ι).restrict fun st e => e.SchedulesSafely st.lock

/-- **Mutex safety.** In every run of tasks that lock, try and unlock any mutexes, unlocking only
what they hold, and that calls `schedule` only where it does not enqueue a queued task, the
mutexes are safe in every state. -/
theorem mutex_safety {ι : Type} [DecidableEq ι] {st : OwnerState ι}
    (h : (safeMutexSystem ι).Reachable st) : MutexSafe st := by
  suffices hinv : Undone st.lock ∧ ∃ W, Guarded st.lock st.owners W by
    obtain ⟨-, W, hW⟩ := hinv
    exact hW.safe
  refine System.Reachable.invariant (S := safeMutexSystem ι)
    (I := fun st => Undone st.lock ∧ ∃ W, Guarded st.lock st.owners W) ?_ ?_ h
  · rintro st ⟨hinit, howners⟩
    have hnil : st.owners = fun _ => [] := funext howners
    exact ⟨Undone.init hinit, _, hnil ▸ Guarded.init hinit⟩
  · rintro st e st' ⟨hu, W, hW⟩ ⟨⟨hallowed, hholder⟩, hsafe⟩ hstep
    obtain ⟨lock, hlock, rfl⟩ := Option.map_eq_some_iff.mp hstep
    exact ⟨hu.step hallowed _ hlock, hW.step hu hallowed hholder hsafe _ hlock⟩

/-! ## Two runs -/

/-- The machine at boot, with nobody in a mutex. -/
def ownerInit (ι : Type) : OwnerState ι := ⟨lockInit ι, fun _ => []⟩

theorem init_ownerInit (ι : Type) [DecidableEq ι] : (mutexSystem ι).init (ownerInit ι) :=
  ⟨init_lockInit ι, fun _ => rfl⟩

/-- Does the running task hold what it unlocks? -/
def LockEvent.byHolder {ι : Type} (st : LockState ι) : LockEvent ι → Bool
  | unlock m => (st.mutex m).holder == some st.sched.currentTask
  | _ => true

theorem allowed_of_byHolder {ι : Type} [DecidableEq ι] (st : OwnerState ι) (e : LockEvent ι)
    (h : (decide (e.Allowed st.lock) && e.byHolder st.lock) = true) :
    (mutexSystem ι).allowed st e := by
  rw [Bool.and_eq_true] at h
  have hallowed : e.Allowed st.lock := of_decide_eq_true h.1
  refine ⟨hallowed, ?_⟩
  rintro m rfl
  exact eq_of_beq h.2

/-- A user task holds the mutex and a system task is blocked; then the user task has unlocked it
and the system task is on its way. -/
theorem mutex_safety_systemWaits :
    (∃ st, (safeMutexSystem Unit).Reachable st ∧ st.owners () = [.slot 0] ∧
      st.lock.BlockedIn () (.slot 1) ∧ MutexSafe st) ∧
    ∃ st, (safeMutexSystem Unit).Reachable st ∧ st.owners () = [] ∧
      st.lock.WokenIn () (.slot 1) ∧ MutexSafe st := by
  have hinit : (safeMutexSystem Unit).Reachable (ownerInit Unit) := .init (init_ownerInit Unit)
  have hok : ∀ (st : OwnerState Unit) (e : LockEvent Unit),
      (decide (e.Allowed st.lock) && e.byHolder st.lock) ∧ e.SchedulesSafely st.lock →
        (safeMutexSystem Unit).allowed st e := fun st e h => ⟨allowed_of_byHolder st e h.1, h.2⟩
  constructor
  · obtain ⟨st, hst, howners, hpc⟩ := System.exists_reachable _ systemWaits
      (fun st => st.owners () = [.slot 0] ∧ st.lock.pc (.slot 1) = .inLock () false true) hok hinit
      (by decide +kernel)
    exact ⟨st, hst, howners, ⟨true, hpc⟩, mutex_safety hst⟩
  · obtain ⟨st, hst, howners, hpc⟩ := System.exists_reachable _ (systemWaits ++ [.unlock ()])
      (fun st => st.owners () = [] ∧ st.lock.pc (.slot 1) = .inLock () true true) hok hinit
      (by decide +kernel)
    exact ⟨st, hst, howners, ⟨true, hpc⟩, mutex_safety hst⟩

/-- A system task is enqueued twice while it holds one mutex; a kernel task takes the other
one, raises the holder and waits; and the holder waits for the kernel task. -/
def queuedWaiter : List (LockEvent Bool) :=
  [.create { Task.zero with tier := .system, cpuQuota := 1 }, .schedule] ++
    replicate 10 .tick ++
    [.create { Task.zero with tier := .system }, .create { Task.zero with tier := .user },
      .schedule, .lock false] ++
    replicate 2 .tick ++
    [.create { Task.zero with tier := .kernel }, .schedule, .lock true, .lock false, .callSchedule,
      .lock true]

/-- **A blocked task in a run queue.** -/
theorem mutex_safety_queued : ∃ st, (mutexSystem Bool).Reachable st ∧
    st.lock.BlockedIn true (.slot 1) ∧ .slot 1 ∈ st.lock.sched.queueOf 1 ∧ ¬ MutexSafe st := by
  obtain ⟨st, hst, hpc, hqueued⟩ := System.exists_reachable (S := mutexSystem Bool)
    (fun st e => decide (e.Allowed st.lock) && e.byHolder st.lock) queuedWaiter
    (fun st => st.lock.pc (.slot 1) = .inLock true false false ∧ .slot 1 ∈ st.lock.sched.queueOf 1)
    allowed_of_byHolder (.init (init_ownerInit Bool)) (by decide +kernel)
  exact ⟨st, hst, ⟨false, hpc⟩, hqueued, fun hsafe => hsafe.unqueued true _ ⟨false, hpc⟩ 1 hqueued⟩

end PokuOS
