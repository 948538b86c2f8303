import PokuOS.Locks

/-!
# Inherited tiers are given back

A waiter raises the holder of a mutex to its own tier and the next `mutex_unlock` of that holder
undoes it. `saved_tier` is written only when the flag is not set and the flag is set only with
it, so however many waiters raise a holder, for however many mutexes, what is saved is the tier
it started with.

Everything else the events do to tasks is scheduling and blocking, which touch none of the three
fields: a relation with `Inheriting` says so once for all functions.
-/

namespace PokuOS

open Function Sched LockState

/-- The relation allows what blocking writes. -/
structure Inheriting (R : Task → Task → Prop) : Prop extends Scheduling R where
  /-- a task waits -/
  waiting : ∀ a, R a { a with state := .waiting }

namespace Sched

/-- The fields of a holder that is raised to `tier`. -/
def boosted (tier : Tier) (task : Task) : Task :=
  { task with
    savedTier := if task.inherited then task.savedTier else task.tier
    tier := tier
    inherited := true }

/-- The fields of a holder that gets its own tier back. -/
def restored (task : Task) : Task :=
  { task with inherited := false, tier := task.savedTier, savedTier := .user }

theorem boost_body (s : Sched) (holder : TaskPtr) (tier : Tier) :
    Post (s.boost holder tier) fun s' => s'.body = (s.modify holder (boosted tier)).body := by
  refine (taskSetTier_body _ holder tier).bind fun s1 h1 => .some ?_
  rw [body_modify_congr h1 holder fun _ => rfl, modify_modify, modify_modify]
  congr 2
  funext task
  unfold boosted
  cases task.inherited <;> rfl

theorem restore_body (s : Sched) (holder : TaskPtr) :
    Post (s.restore holder) fun s' => s'.body = (s.modify holder restored).body := by
  refine (taskSetTier_body _ holder _).bind fun s1 h1 => .some ?_
  rw [body_modify_congr h1 holder fun _ => rfl, modify_modify, modify_modify, task_modify,
    if_pos rfl]
  rfl

variable {R : Task → Task → Prop} (hR : Inheriting R)
include hR

theorem via_boost (s : Sched) (holder : TaskPtr) (tier : Tier) :
    Post (s.boost holder tier) (Via R (s.modify holder (boosted tier))) :=
  (boost_body s holder tier).mono fun _ => .of_body hR.toQueueing

theorem via_restore (s : Sched) (holder : TaskPtr) :
    Post (s.restore holder) (Via R (s.modify holder restored)) :=
  (restore_body s holder).mono fun _ => .of_body hR.toQueueing

theorem via_block (s : Sched) (waitq : Option TaskPtr) : Post (s.block waitq) (Via R s) := by
  have hQ := hR.toQueueing
  exact (block_body s waitq).mono fun _ h =>
    Via.trans hQ (.modify hQ s _ (hR.waiting _)) (.of_body hQ h)

theorem via_wake (s : Sched) (w : TaskPtr) : Via R s (s.wake w) := by
  have hQ := hR.toQueueing
  exact Via.trans hQ (.modify hQ s w (hR.ready _)) (.of_body hQ (wake_body s w))

end Sched

/-! ## The invariant -/

/-- The fields that inheritance uses, `kill_pending` and `in_use` are the same. -/
structure SameTier (a b : Task) : Prop where
  tier : b.tier = a.tier
  inherited : b.inherited = a.inherited
  saved : b.savedTier = a.savedTier
  kill : b.killPending = a.killPending
  inUse : b.inUse = a.inUse

theorem charging_sameTier : Charging SameTier where
  refl _ := ⟨rfl, rfl, rfl, rfl, rfl⟩
  trans h h' := ⟨h'.tier.trans h.tier, h'.inherited.trans h.inherited, h'.saved.trans h.saved,
    h'.kill.trans h.kill, h'.inUse.trans h.inUse⟩
  links _ _ _ := ⟨rfl, rfl, rfl, rfl, rfl⟩
  ready _ := ⟨rfl, rfl, rfl, rfl, rfl⟩
  running _ := ⟨rfl, rfl, rfl, rfl, rfl⟩
  timeslice _ _ := ⟨rfl, rfl, rfl, rfl, rfl⟩
  level _ _ := ⟨rfl, rfl, rfl, rfl, rfl⟩
  contTicks _ _ := ⟨rfl, rfl, rfl, rfl, rfl⟩
  quota _ _ _ := ⟨rfl, rfl, rfl, rfl, rfl⟩

theorem inheriting_sameTier : Inheriting SameTier where
  toScheduling := charging_sameTier.toScheduling
  waiting _ := ⟨rfl, rfl, rfl, rfl, rfl⟩

/-- A task against the tier it started with. -/
structure TierOk (start : Tier) (task : Task) : Prop where
  /-- without the flag it has that tier -/
  plain : task.inherited = false → task.tier = start
  /-- with the flag it has saved it -/
  saved : task.inherited = true → task.savedTier = start
  /-- it is not to die -/
  kill : task.killPending = false

namespace TierOk

variable {start : Tier} {task task' : Task}

theorem same (h : TierOk start task) (hs : SameTier task task') : TierOk start task' :=
  ⟨fun hf => hs.tier.trans (h.plain (hs.inherited ▸ hf)),
    fun hf => hs.saved.trans (h.saved (hs.inherited ▸ hf)), hs.kill.trans h.kill⟩

/-- **Raising a holder saves the tier it started with**, the first time and every other. -/
theorem boosted (h : TierOk start task) (tier : Tier) : TierOk start (Sched.boosted tier task) := by
  refine ⟨nofun, fun _ => ?_, h.kill⟩
  unfold Sched.boosted
  cases hf : task.inherited with
  | false => exact h.plain hf
  | true => exact h.saved hf

/-- **It gets back the tier it started with.** -/
theorem restored (h : TierOk start task) (hf : task.inherited = true) :
    TierOk start (Sched.restored task) :=
  ⟨fun _ => h.saved hf, nofun, h.kill⟩

end TierOk

/-- The invariant: every task against its tier, and only holders have the flag. -/
structure Undone {ι : Type} (st : LockState ι) : Prop where
  /-- a mutex that is not locked has no holder -/
  unlocked : ∀ m, (st.mutex m).locked = false → (st.mutex m).holder = none
  /-- each task -/
  task : ∀ t, TierOk (st.startTier t) (st.sched.task t)
  /-- a task with the flag holds a mutex -/
  holds : ∀ t, (st.sched.task t).inherited = true → ∃ m, (st.mutex m).holder = some t
  /-- there is no watchdog entry -/
  wdTable : st.sched.wdTable = []

namespace Undone

variable {ι : Type} {st : LockState ι}

variable (h : Undone st)
include h

theorem same {s : Sched} (pc : TaskPtr → LockPc ι)
    (htask : ∀ t, SameTier (st.sched.task t) (s.task t)) (hwd : s.wdTable = []) :
    Undone { st with sched := s, pc := pc } :=
  ⟨h.unlocked, fun t => (h.task t).same (htask t),
    fun t ht => h.holds t ((htask t).inherited ▸ ht), hwd⟩

theorem via {s : Sched} (pc : TaskPtr → LockPc ι)
    (hv : Sched.Via SameTier st.sched s) : Undone { st with sched := s, pc := pc } :=
  h.same pc hv.task (hv.wdTable.trans h.wdTable)

theorem schedule (pc : TaskPtr → LockPc ι) :
    Post st.sched.schedule fun s => Undone { st with sched := s, pc := pc } :=
  (via_schedule charging_sameTier.toScheduling _).mono fun _ => h.via pc

theorem inheritTier (m : ι) : Post (st.inheritTier m) fun s => Undone { st with sched := s } := by
  unfold LockState.inheritTier
  simp only
  split
  · exact .some h
  rename_i holder hholder
  split
  · refine (via_boost inheriting_sameTier _ _ _).mono fun s hv => ?_
    set tier := (st.sched.task st.sched.currentTask).tier
    have hb : Undone { st with sched := st.sched.modify holder (boosted tier) } := by
      refine ⟨h.unlocked, fun t => ?_, fun t ht => ?_, h.wdTable⟩
      · simp only [task_modify]
        split
        · rename_i heq
          subst heq
          exact (h.task t).boosted _
        · exact h.task t
      · by_cases heq : t = holder
        · exact ⟨m, heq ▸ hholder⟩
        · simp only [task_modify, if_neg heq] at ht
          exact h.holds t ht
    exact hb.via _ hv
  · exact .some h

/-- The end of inheritance in `mutex_unlock`: who has the flag then does not hold the mutex. -/
theorem restoreTier (m : ι) :
    Post (st.restoreTier m) fun s => (∀ t, TierOk (st.startTier t) (s.task t)) ∧
      (∀ t, (s.task t).inherited = true →
        (st.sched.task t).inherited = true ∧ (st.mutex m).holder ≠ some t) ∧
      s.wdTable = [] := by
  unfold LockState.restoreTier
  split
  · rename_i hholder
    exact .some ⟨h.task, fun t ht => ⟨ht, hholder ▸ nofun⟩, h.wdTable⟩
  rename_i holder hholder
  split
  · rename_i hflag
    refine (via_restore inheriting_sameTier _ _).mono fun s hv => ?_
    have hsame : ∀ t, SameTier (if t = holder then restored (st.sched.task holder)
        else st.sched.task t) (s.task t) := fun t => task_modify .. ▸ hv.task t
    refine ⟨fun t => ?_, fun t ht => ?_, hv.wdTable.trans h.wdTable⟩
    · refine TierOk.same ?_ (hsame t)
      split
      · rename_i heq
        subst heq
        exact (h.task t).restored hflag
      · exact h.task t
    · rw [(hsame t).inherited] at ht
      split at ht
      · cases ht
      · rename_i hne
        exact ⟨ht, hholder ▸ fun heq => hne (Option.some.inj heq).symm⟩
  · rename_i hflag
    exact .some ⟨h.task, fun t ht => ⟨ht, hholder ▸ fun heq => hflag (Option.some.inj heq ▸ ht)⟩,
      h.wdTable⟩

theorem create {fields : Task} (hkill : fields.killPending = false)
    (hflag : fields.inherited = false) : Undone (st.create fields) := by
  rcases st.sched.createAndEnqueue_cases fields with ⟨hslot, hsame⟩ | ⟨i, s1, hslot, -, hbody⟩
  · simp only [LockState.create, hslot, hsame]
    exact h
  · suffices hfilled : Undone { st with
        sched := st.sched.created i fields
        startTier := update st.startTier (.slot i) fields.tier } by
      simp only [LockState.create, hslot]
      exact hfilled.via st.pc (.of_body charging_sameTier.toQueueing hbody)
    refine ⟨h.unlocked, fun t => ?_, fun t ht => ?_, h.wdTable⟩
    · simp only [created, task_modify, update_apply]
      split
      · exact ⟨fun _ => rfl, fun hf => (by cases hflag.symm.trans hf), hkill⟩
      · exact h.task t
    · simp only [created, task_modify] at ht
      split at ht
      · cases hflag.symm.trans ht
      · exact h.holds t ht

variable [DecidableEq ι]

omit h in
theorem init (h : (lockSystem ι).init st) : Undone st := by
  obtain ⟨⟨pageDirectory, hsched⟩, hmutex, -, hstart⟩ := h
  refine ⟨fun m _ => (hmutex m).2.1, fun t => ?_, fun t ht => ?_, by rw [hsched]; rfl⟩
  · rw [hstart, hsched]
    cases t <;> exact ⟨fun _ => rfl, nofun, rfl⟩
  · rw [hsched] at ht
    cases t <;> exact nomatch ht

/-- The current task takes a mutex: that costs nobody a mutex. -/
theorem take {m : ι} (hm : (st.mutex m).locked = false) : Undone (st.take m) := by
  refine ⟨fun m' hm' => ?_, h.task, fun t ht => ?_, h.wdTable⟩
  · rw [mutex_take] at hm' ⊢
    split at hm'
    · cases hm'
    · rename_i hne
      rw [if_neg hne]
      exact h.unlocked m' hm'
  · obtain ⟨m', hm'⟩ := h.holds t ht
    have hne : m' ≠ m := by
      rintro rfl
      cases hm'.symm.trans (h.unlocked _ hm)
    refine ⟨m', ?_⟩
    rw [mutex_take, if_neg hne]
    exact hm'

theorem mutexLock (m : ι) : Post (st.mutexLock m) Undone := by
  unfold LockState.mutexLock
  split
  · refine (h.inheritTier m).bind fun s1 h1 => ?_
    refine (via_block inheriting_sameTier s1 _).bind fun s2 hv => .some ?_
    have h2 := h1.via (update st.pc st.sched.currentTask (.inLock m false false)) hv
    refine ⟨fun m' hm' => ?_, h2.task, fun t ht => ?_, h2.wdTable⟩
    · obtain ⟨hlocked, hholder, -⟩ := LockState.update_waitq st.mutex m m' st.sched.currentTask
      exact hholder.trans (h.unlocked m' (hlocked ▸ hm'))
    · obtain ⟨m', hm'⟩ := h2.holds t ht
      exact ⟨m', (LockState.update_waitq st.mutex m m' _).2.1.trans hm'⟩
  · rename_i hm
    exact .some (h.take (Bool.eq_false_iff.mpr hm))

theorem release (m : ι) {s : Sched} (waitq : Option TaskPtr)
    (pc : TaskPtr → LockPc ι) (htask : ∀ t, TierOk (st.startTier t) (s.task t))
    (hflag : ∀ t, (s.task t).inherited = true →
      (st.sched.task t).inherited = true ∧ (st.mutex m).holder ≠ some t)
    (hwd : s.wdTable = []) :
    Undone { st with
      sched := s, pc := pc,
      mutex := update st.mutex m
        { st.mutex m with locked := false, holder := none, waitq := waitq } } := by
  refine ⟨fun m' hm' => ?_, htask, fun t ht => ?_, hwd⟩
  · by_cases heq : m' = m
    · subst heq
      simp only [update_self]
    · simp only [update_of_ne heq] at hm' ⊢
      exact h.unlocked m' hm'
  · obtain ⟨m', hm'⟩ := h.holds t (hflag t ht).1
    have hne : m' ≠ m := by
      rintro rfl
      exact (hflag t ht).2 hm'
    refine ⟨m', ?_⟩
    simp only [update_of_ne hne]
    exact hm'

theorem mutexUnlock (m : ι) : Post (st.mutexUnlock m) Undone := by
  refine (h.restoreTier m).bind ?_
  rintro s ⟨htask, hflag, hwd⟩
  cases hq : (st.mutex m).waitq with
  | none =>
    refine .some ?_
    exact h.release m (st.mutex m).waitq st.pc htask hflag hwd
  | some w =>
    have hwake := via_wake inheriting_sameTier s w
    refine .some (h.release m _ _ (fun t => (htask t).same (hwake.task t)) (fun t ht => ?_)
      (hwake.wdTable.trans hwd))
    rw [(hwake.task t).inherited] at ht
    exact hflag t ht

/-- **One event keeps every task against the tier it started with.** -/
theorem step {e : LockEvent ι} (hallowed : (lockSystem ι).allowed st e) :
    Post ((lockSystem ι).step st e) Undone := by
  cases e with
  | lock m => exact h.mutexLock m
  | trylock m =>
    refine .some ?_
    unfold mutexTrylock
    split
    · exact h
    · rename_i hm
      exact h.take (Bool.eq_false_iff.mpr hm)
  | unlock m => exact h.mutexUnlock m
  | callSchedule =>
    change Post st.callSchedule Undone
    unfold callSchedule
    split
    · exact .none
    · exact (h.schedule _).bind fun _ h1 => .some h1
  | retest =>
    change Post st.retest Undone
    unfold retest
    split
    · exact .none
    · exact h.mutexLock _
  | tick =>
    refine (tasks_pitHandler charging_sameTier.toMetering h.wdTable (h.task _).kill).bind
      fun s1 ⟨htask, hwd⟩ => ?_
    exact ((h.same st.pc htask hwd).schedule st.pc).bind fun _ h2 => .some h2
  | yield =>
    refine (via_yieldCurrent charging_sameTier.toWaking _).bind fun s1 hv => ?_
    exact ((h.via st.pc hv).schedule st.pc).bind fun _ h2 => .some h2
  | schedule => exact (h.schedule st.pc).bind fun _ h1 => .some h1
  | create fields => exact .some (h.create hallowed.1 hallowed.2)

omit h in
theorem of_reachable (h : (lockSystem ι).Reachable st) : Undone st :=
  System.Reachable.invariant (S := lockSystem ι) (fun _ => Undone.init)
    (fun _ _ _ hu hallowed => hu.step hallowed _) h

end Undone

/-- **Priority inheritance is always undone.** In every state of every run of tasks that lock,
try and unlock any mutexes, a task without the flag has the tier it was created with, one with
the flag has it saved, and one that holds no mutex has it. -/
theorem inheritance_undone {ι : Type} [DecidableEq ι] {st : LockState ι}
    (h : (lockSystem ι).Reachable st) (t : TaskPtr) :
    ((st.sched.task t).inherited = false → (st.sched.task t).tier = st.startTier t) ∧
      ((st.sched.task t).inherited = true → (st.sched.task t).savedTier = st.startTier t) ∧
      ((∀ m, (st.mutex m).holder ≠ some t) → (st.sched.task t).tier = st.startTier t) := by
  have hu := Undone.of_reachable h
  refine ⟨(hu.task t).plain, (hu.task t).saved, fun hfree => (hu.task t).plain ?_⟩
  rw [Bool.eq_false_iff]
  intro hflag
  obtain ⟨m, hm⟩ := hu.holds t hflag
  exact hfree m hm

/-! ## A run -/

/-- The machine at boot, with mutexes that inherit. -/
def lockInit (ι : Type) : LockState ι where
  sched := .taskInit 300
  mutex _ := ⟨false, none, none, true⟩
  pc _ := .outside
  startTier t := ((Sched.taskInit 300).task t).tier

theorem init_lockInit (ι : Type) [DecidableEq ι] : (lockSystem ι).init (lockInit ι) :=
  ⟨⟨300, rfl⟩, fun _ => ⟨rfl, rfl, rfl⟩, fun _ => rfl, fun _ => rfl⟩

/-- A new task of this tier. -/
def tierTask (tier : Tier) : Task := { Task.zero with tier := tier, timeslice := taskTimeslice }

/-- A user task takes the mutex, and a system task waits for it. -/
def systemWaits : List (LockEvent Unit) :=
  [.create (tierTask .user), .schedule, .lock (), .create (tierTask .system), .tick, .lock (),
    .callSchedule]

/-- The user task is raised and has its tier saved; then it unlocks and has its tier back. -/
theorem inheritance_undone_user :
    (∃ st, (lockSystem Unit).Reachable st ∧ (st.sched.task (.slot 0)).inherited = true ∧
      (st.sched.task (.slot 0)).tier = .system ∧ st.startTier (.slot 0) = .user ∧
      (st.sched.task (.slot 0)).savedTier = st.startTier (.slot 0)) ∧
    ∃ st, (lockSystem Unit).Reachable st ∧ (st.mutex ()).holder = none ∧
      st.startTier (.slot 0) = .user ∧ (st.sched.task (.slot 0)).tier = st.startTier (.slot 0) := by
  have hinit := System.Reachable.init (init_lockInit Unit)
  constructor
  · obtain ⟨st, hst, hflag, htier, hstart⟩ := System.exists_reachable (S := lockSystem Unit)
      (fun st e => e.Allowed st) systemWaits
      (fun st => (st.sched.task (.slot 0)).inherited = true ∧
        (st.sched.task (.slot 0)).tier = .system ∧ st.startTier (.slot 0) = .user)
      (fun _ _ => id) hinit (by decide +kernel)
    exact ⟨st, hst, hflag, htier, hstart, (inheritance_undone hst (.slot 0)).2.1 hflag⟩
  · obtain ⟨st, hst, hholder, hstart⟩ := System.exists_reachable (S := lockSystem Unit)
      (fun st e => e.Allowed st) (systemWaits ++ [.unlock ()])
      (fun st => (st.mutex ()).holder = none ∧ st.startTier (.slot 0) = .user)
      (fun _ _ => id) hinit (by decide +kernel)
    refine ⟨st, hst, hholder, hstart, (inheritance_undone hst (.slot 0)).2.2 fun m => ?_⟩
    rw [hholder]
    nofun

end PokuOS
