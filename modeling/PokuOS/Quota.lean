import PokuOS.Locks
import PokuOS.RunQueue

/-!
# CPU quotas

`pit_handler` charges each tick to the running task and marks it when its quota is used up; the
functions that pick a task skip the marked ones. Nothing takes the processor from a task at the
tick that marks it: it keeps it until its slice ends or a better task is ready, and a slice is
at most three ticks.

Whatever state the queues are in, a pick returns no marked task. So a call of `schedule` has three
outcomes: the idle task runs, or a task with quota left and a fresh slice, or the same task with
one tick less (`Outcome`). The invariant adds the slice that is left to what has been used.
-/

namespace PokuOS

namespace Task

/-- The ticks a task may use in a period. -/
def quotaLimit (task : Task) : ℕ := max 1 (quotaPeriodTicks * task.cpuQuota / 100)

/-- The task has a quota. -/
def Quoted (task : Task) : Prop := 1 ≤ task.cpuQuota ∧ task.cpuQuota ≤ 100

/-- What a task has used against its quota. -/
structure QuotaOk (task : Task) : Prop where
  /-- it is marked when the quota is used up -/
  left : task.quotaDone = false → task.quotaUsedTicks < task.quotaLimit
  /-- and uses little more -/
  most : task.quotaUsedTicks ≤ task.quotaLimit + 2

end Task

/-- The same quota, the same part of it used. -/
structure SameQuota (a b : Task) : Prop where
  quota : b.cpuQuota = a.cpuQuota
  used : b.quotaUsedTicks = a.quotaUsedTicks
  done : b.quotaDone = a.quotaDone

theorem SameQuota.limit {a b : Task} (h : SameQuota a b) : b.quotaLimit = a.quotaLimit := by
  unfold Task.quotaLimit
  rw [h.quota]

theorem SameQuota.quoted {a b : Task} (h : SameQuota a b) : b.Quoted ↔ a.Quoted := by
  unfold Task.Quoted
  rw [h.quota]

theorem SameQuota.quotaOk {a b : Task} (h : SameQuota a b) (ha : a.QuotaOk) : b.QuotaOk := by
  refine ⟨fun hdone => ?_, ?_⟩
  · rw [h.used, h.limit]
    exact ha.left (h.done ▸ hdone)
  · rw [h.used, h.limit]
    exact ha.most

theorem scheduling_sameQuota : Scheduling SameQuota where
  refl _ := ⟨rfl, rfl, rfl⟩
  trans h h' := ⟨h'.quota.trans h.quota, h'.used.trans h.used, h'.done.trans h.done⟩
  links _ _ _ := ⟨rfl, rfl, rfl⟩
  ready _ := ⟨rfl, rfl, rfl⟩
  running _ := ⟨rfl, rfl, rfl⟩
  timeslice _ _ := ⟨rfl, rfl, rfl⟩

/-- And the same slice left. -/
structure SameSlice (a b : Task) : Prop extends SameQuota a b where
  slice : b.timeslice = a.timeslice

theorem closing_sameSlice : Closing SameSlice where
  refl _ := ⟨⟨rfl, rfl, rfl⟩, rfl⟩
  trans h h' := ⟨scheduling_sameQuota.trans h.toSameQuota h'.toSameQuota, h'.slice.trans h.slice⟩
  links _ _ _ := ⟨⟨rfl, rfl, rfl⟩, rfl⟩
  woken _ _ := ⟨⟨rfl, rfl, rfl⟩, rfl⟩
  ended _ _ := ⟨⟨rfl, rfl, rfl⟩, rfl⟩
  orphan _ := ⟨⟨rfl, rfl, rfl⟩, rfl⟩

namespace Sched

variable {s s' : Sched}

/-! ## A call of `schedule` -/

/-- The same task runs, and no slice or quota has changed. -/
structure SameRun (s s' : Sched) : Prop where
  /-- each task -/
  task : ∀ t, SameSlice (s.task t) (s'.task t)
  currentTask : s'.currentTask = s.currentTask

variable {s'' : Sched}

theorem SameRun.trans (h : SameRun s s') (h' : SameRun s' s'') : SameRun s s'' :=
  ⟨fun t => closing_sameSlice.trans (h.task t) (h'.task t), h'.currentTask.trans h.currentTask⟩

/-- One task is written, neither its slice nor its quota. -/
theorem SameRun.modify (s : Sched) (t : TaskPtr) {f : Task → Task}
    (hf : SameSlice (s.task t) (f (s.task t))) : SameRun s (s.modify t f) :=
  ⟨(Via.modify closing_sameSlice.toQueueing s t hf).task, rfl⟩

theorem releveling_sameRun : Releveling SameRun where
  trans := .trans
  body h := ⟨(Via.of_body closing_sameSlice.toQueueing h).task, currentTask_eq h⟩
  level s t _ := .modify s t ⟨⟨rfl, rfl, rfl⟩, rfl⟩
  contTicks s t _ := .modify s t ⟨⟨rfl, rfl, rfl⟩, rfl⟩
  ready s t := .modify s t ⟨⟨rfl, rfl, rfl⟩, rfl⟩

/-- **The outcomes of `schedule`**: the idle task runs; or a task with quota left and a slice of at
most three ticks; or the same task goes on with a tick less. -/
def Outcome (s s' : Sched) : Prop :=
  s'.currentTask = .idle ∨
    (s'.task s'.currentTask).quotaDone = false ∧ (s'.task s'.currentTask).timeslice ≤ 3 ∨
    s'.currentTask = s.currentTask ∧ 1 ≤ (s'.task s'.currentTask).timeslice ∧
      (s'.task s'.currentTask).timeslice + 1 ≤ (s.task s.currentTask).timeslice

theorem tierTimeslice_le (task : Task) : tierTimeslice task ≤ 3 := by
  unfold tierTimeslice
  split <;> omega

theorem timeslice_setTaskTimeslice_le (s : Sched) (t : TaskPtr) :
    ((s.setTaskTimeslice t).task t).timeslice ≤ 3 := by
  unfold setTaskTimeslice
  rw [task_modify, if_pos rfl]
  exact tierTimeslice_le _

theorem outcome_schedule (s : Sched) : Post s.schedule (Outcome s) := by
  intro s' hs'
  have htask := (via_schedule scheduling_sameQuota s s' hs').task
  cases scheduled_schedule s s' hs' with
  | idle hidle hbody => exact .inl ((currentTask_eq hbody).trans hidle)
  | @switch s1 cand _ hcand =>
    rcases hcand with hidle | hleft
    · exact .inl hidle
    · exact .inr (.inl ⟨(htask cand).done.trans hleft, timeslice_setTaskTimeslice_le _ cand⟩)
  | @renew s1 hbody hleft =>
    have hcur : s1.currentTask = s.currentTask := (congrArg Sched.currentTask hbody :)
    refine .inr (.inl ?_)
    rw [show (s1.setTaskTimeslice s.currentTask).currentTask = s.currentTask from hcur]
    exact ⟨(htask _).done.trans hleft, timeslice_setTaskTimeslice_le s1 _⟩
  | goOn hbody _ hpos =>
    have hcur : s'.currentTask = s.currentTask := (congrArg Sched.currentTask hbody :)
    refine .inr (.inr ⟨hcur, ?_⟩)
    rw [hcur]
    have hslice : (s'.task s.currentTask).timeslice = (s.spent.task s.currentTask).timeslice :=
      task_read Task.timeslice (fun _ => rfl) hbody s.currentTask
    rw [spent, task_modify, if_pos rfl] at hslice
    split at hslice
    · simp only at hslice
      omega
    · omega

/-! ## The invariant -/

/-- All quotas are kept, and if the running task is marked, what it has used and what is left of
its slice exceed the quota by at most `slack`. -/
structure QuotaInv (s : Sched) (slack : ℤ) : Prop where
  /-- each task -/
  task : ∀ t, (s.task t).Quoted → (s.task t).QuotaOk
  /-- the idle task has no quota -/
  idle : (s.task .idle).cpuQuota = 0
  /-- slices are short -/
  slice : s.currentTask = .idle ∨ (s.task s.currentTask).timeslice ≤ 3
  /-- the running task -/
  last : (s.task s.currentTask).Quoted → (s.task s.currentTask).quotaDone = true →
    (s.task s.currentTask).quotaUsedTicks + (s.task s.currentTask).timeslice ≤
      (s.task s.currentTask).quotaLimit + slack

/-- Between two events a marked task that runs has some of its slice left. -/
structure Rested (s : Sched) : Prop extends QuotaInv s 2 where
  /-- the running task -/
  pos : (s.task s.currentTask).Quoted → (s.task s.currentTask).quotaDone = true →
    1 ≤ (s.task s.currentTask).timeslice

theorem QuotaInv.mono {slack slack' : ℤ} (h : QuotaInv s slack) (hle : slack ≤ slack') :
    QuotaInv s slack' :=
  ⟨h.task, h.idle, h.slice, fun hq hd => (h.last hq hd).trans (Int.add_le_add_left hle _)⟩

theorem Rested.due (h : Rested s) : QuotaInv s 3 := h.toQuotaInv.mono (by decide)

theorem QuotaInv.same {slack : ℤ} (h : QuotaInv s slack) (hs : SameRun s s') :
    QuotaInv s' slack := by
  have hcur := hs.task s.currentTask
  refine ⟨fun t hq => (hs.task t).quotaOk (h.task t ((hs.task t).quoted.mp hq)),
    (hs.task .idle).quota.trans h.idle, ?_, ?_⟩
  · rw [hs.currentTask, hcur.slice]
    exact h.slice
  · rw [hs.currentTask, hcur.quoted, hcur.done, hcur.used, hcur.slice, hcur.limit]
    exact h.last

theorem Rested.same (h : Rested s) (hs : SameRun s s') : Rested s' := by
  have hcur := hs.task s.currentTask
  refine ⟨h.toQuotaInv.same hs, ?_⟩
  rw [hs.currentTask, hcur.quoted, hcur.done, hcur.slice]
  exact h.pos

/-- **`schedule` pays for the tick**: one tick less is left of the slice, or another task runs. -/
theorem QuotaInv.schedule (h : QuotaInv s 3) : Post s.schedule Rested := by
  intro s' hs'
  have htask := (via_schedule scheduling_sameQuota s s' hs').task
  have hout := outcome_schedule s s' hs'
  have hidle : (s'.task .idle).cpuQuota = 0 := (htask .idle).quota.trans h.idle
  have hcur : ∀ {t}, t = .idle → ¬(s'.task t).Quoted := by
    rintro t rfl ⟨hq, -⟩
    omega
  refine ⟨⟨fun t hq => (htask t).quotaOk (h.task t ((htask t).quoted.mp hq)), hidle, ?_, ?_⟩, ?_⟩
  · rcases hout with hout | ⟨-, hle⟩ | ⟨hsame, -, hle⟩
    · exact .inl hout
    · exact .inr hle
    · rcases h.slice with hs | hs
      · exact .inl (hsame.trans hs)
      · exact .inr (by omega)
  · intro hq hd
    rcases hout with hout | ⟨hleft, -⟩ | ⟨hsame, -, hle⟩
    · exact absurd hq (hcur hout)
    · cases hleft.symm.trans hd
    · rw [hsame] at hq hd hle ⊢
      have hlast := h.last ((htask _).quoted.mp hq) ((htask _).done ▸ hd)
      rw [(htask _).used, (htask _).limit]
      omega
  · intro hq hd
    rcases hout with hout | ⟨hleft, -⟩ | ⟨-, hpos, -⟩
    · exact absurd hq (hcur hout)
    · cases hleft.symm.trans hd
    · exact hpos

/-! ## The timer -/

/-- A tick is charged to a task with a quota, which is not near overflow. -/
theorem task_chargeQuota (hq : (s.task s.currentTask).Quoted)
    (hok : (s.task s.currentTask).QuotaOk) :
    s.chargeQuota.task s.currentTask = { s.task s.currentTask with
      quotaUsedTicks := (s.task s.currentTask).quotaUsedTicks + 1
      quotaDone := decide ((s.task s.currentTask).quotaLimit ≤
        (s.task s.currentTask).quotaUsedTicks + 1) || (s.task s.currentTask).quotaDone } := by
  unfold chargeQuota
  rw [task_modify, if_pos rfl]
  generalize s.task s.currentTask = task at hq hok ⊢
  obtain ⟨hpos, hle⟩ := hq
  have hmost := hok.most
  have hlimit : max (quotaPeriodTicks * task.cpuQuota % 2 ^ 32 / 100) 1 = task.quotaLimit := by
    unfold Task.quotaLimit quotaPeriodTicks
    rw [Nat.mod_eq_of_lt (by omega), max_comm]
  have hused : (task.quotaUsedTicks + 1) % 2 ^ 32 = task.quotaUsedTicks + 1 := by
    refine Nat.mod_eq_of_lt ?_
    unfold Task.quotaLimit quotaPeriodTicks at hmost
    omega
  rw [if_pos (show 0 < task.cpuQuota from hpos)]
  simp only [hlimit, hused]

/-- **A tick**: the running task has used one more. -/
theorem Rested.chargeQuota (h : Rested s) : QuotaInv s.chargeQuota 3 := by
  have hother : ∀ {t}, t ≠ s.currentTask → s.chargeQuota.task t = s.task t := fun ht => by
    rw [Sched.chargeQuota, task_modify, if_neg ht]
  have hquota : (s.chargeQuota.task s.currentTask).cpuQuota = (s.task s.currentTask).cpuQuota ∧
      (s.chargeQuota.task s.currentTask).timeslice = (s.task s.currentTask).timeslice := by
    rw [Sched.chargeQuota, task_modify, if_pos rfl]
    split <;> exact ⟨rfl, rfl⟩
  have hquoted : (s.chargeQuota.task s.currentTask).Quoted → (s.task s.currentTask).Quoted := by
    intro hq
    unfold Task.Quoted at hq
    rw [hquota.1] at hq
    exact hq
  have hidle : (s.task s.currentTask).Quoted → s.currentTask ≠ .idle := by
    rintro ⟨hq, -⟩ hc
    rw [hc, h.idle] at hq
    omega
  refine ⟨fun t hq => ?_, ?_, ?_, fun hq hd => ?_⟩
  · by_cases ht : t = s.currentTask
    · subst ht
      have hq := hquoted hq
      have hok := h.task _ hq
      rw [task_chargeQuota hq hok]
      refine ⟨fun hd => ?_, ?_⟩
      · rw [Bool.or_eq_false_iff, decide_eq_false_iff_not] at hd
        exact Nat.lt_of_not_le hd.1
      · -- a marked task has a tick of its slice left, so it has not used all of the surplus
        cases hd : (s.task s.currentTask).quotaDone with
        | false => exact (hok.left hd).trans (Nat.lt_add_of_pos_right Nat.two_pos)
        | true =>
          have hlast := h.last hq hd
          have hpos := h.pos hq hd
          change (s.task s.currentTask).quotaUsedTicks + 1 ≤
            (s.task s.currentTask).quotaLimit + 2
          omega
    · rw [hother ht] at hq ⊢
      exact h.task t hq
  · by_cases hc : TaskPtr.idle = s.currentTask
    · rw [hc, hquota.1, ← hc]
      exact h.idle
    · rw [hother hc]
      exact h.idle
  · change s.currentTask = .idle ∨ (s.chargeQuota.task s.currentTask).timeslice ≤ 3
    rw [hquota.2]
    exact h.slice
  · change (s.chargeQuota.task s.currentTask).Quoted at hq
    change (s.chargeQuota.task s.currentTask).quotaUsedTicks +
      (s.chargeQuota.task s.currentTask).timeslice ≤
        (s.chargeQuota.task s.currentTask).quotaLimit + 3
    have hq := hquoted hq
    have hok := h.task _ hq
    rw [task_chargeQuota hq hok]
    change ((s.task s.currentTask).quotaUsedTicks + 1 : ℕ) + (s.task s.currentTask).timeslice ≤
      (s.task s.currentTask).quotaLimit + 3
    have hslice := h.slice.resolve_left (hidle hq)
    cases hdone : (s.task s.currentTask).quotaDone with
    | false =>
      have := hok.left hdone
      omega
    | true =>
      have := h.last hq hdone
      omega

theorem not_quoted_zero : ¬Task.zero.Quoted := fun h => absurd h.1 (by decide)

theorem QuotaInv.freeTaskSlot {slack : ℤ} (h : QuotaInv s slack) (t : TaskPtr) :
    QuotaInv (s.freeTaskSlot t) slack := by
  cases t with
  | idle => exact h
  | slot i =>
    refine ⟨fun p hq => ?_, ?_, ?_, fun hq => ?_⟩
    · rw [task_freeTaskSlot] at hq ⊢
      split at hq
      · exact absurd hq not_quoted_zero
      · rename_i hne
        rw [if_neg hne]
        exact h.task p hq
    · rw [task_freeTaskSlot, if_neg nofun]
      exact h.idle
    · rw [task_freeTaskSlot]
      split
      · exact .inr (by decide)
      · exact h.slice
    · rw [task_freeTaskSlot] at hq ⊢
      split at hq
      · exact absurd hq not_quoted_zero
      · rename_i hne
        rw [if_neg hne]
        exact h.last hq

theorem Rested.freeTaskSlot (h : Rested s) (i : Fin maxTasks) :
    Rested (s.freeTaskSlot (.slot i)) := by
  refine ⟨h.toQuotaInv.freeTaskSlot _, fun hq => ?_⟩
  rw [task_freeTaskSlot] at hq ⊢
  split at hq
  · exact absurd hq not_quoted_zero
  · rename_i hne
    rw [if_neg hne]
    exact h.pos hq

theorem QuotaInv.watchdogTick (h : QuotaInv s 3) : QuotaInv s.watchdogTick 3 := by
  have h' := wdTickAll_rule (P := fun s => QuotaInv s 3) (fun _ t _ h => h.freeTaskSlot t) s.wdTable
    (s := { s with wdTick := (s.wdTick + 1) % 2 ^ 32 }) ⟨h.task, h.idle, h.slice, h.last⟩
  exact ⟨h'.task, h'.idle, h'.slice, h'.last⟩

/-- **A new period**: nothing has been used. -/
theorem QuotaInv.taskQuotaPeriodReset (h : QuotaInv s 3) : QuotaInv s.taskQuotaPeriodReset 3 := by
  have htask : ∀ t, s.taskQuotaPeriodReset.task t = s.task t ∨
      s.taskQuotaPeriodReset.task t =
        { s.task t with quotaUsedTicks := 0, quotaDone := false } := by
    intro t
    cases t with
    | idle => exact .inl rfl
    | slot i =>
      unfold Sched.taskQuotaPeriodReset
      simp only
      split
      · exact .inr rfl
      · exact .inl rfl
  refine ⟨fun t hq => ?_, h.idle, ?_, fun hq hd => ?_⟩
  · rcases htask t with heq | heq
    · rw [heq] at hq ⊢
      exact h.task t hq
    · rw [heq]
      exact ⟨fun _ => Nat.lt_of_lt_of_le Nat.one_pos (le_max_left ..), Nat.zero_le _⟩
  · change s.currentTask = .idle ∨ (s.taskQuotaPeriodReset.task s.currentTask).timeslice ≤ 3
    rcases htask s.currentTask with heq | heq
    · rw [heq]
      exact h.slice
    · rw [heq]
      exact h.slice
  · change (s.taskQuotaPeriodReset.task s.currentTask).Quoted at hq
    change (s.taskQuotaPeriodReset.task s.currentTask).quotaDone = true at hd
    change (s.taskQuotaPeriodReset.task s.currentTask).quotaUsedTicks +
      (s.taskQuotaPeriodReset.task s.currentTask).timeslice ≤
        (s.taskQuotaPeriodReset.task s.currentTask).quotaLimit + 3
    rcases htask s.currentTask with heq | heq
    · rw [heq] at hq hd ⊢
      exact h.last hq hd
    · rw [heq] at hd
      cases hd

theorem sameRun_exitCurrent (s : Sched) (code : ℤ) : Post (s.exitCurrent code) (SameRun s) :=
  fun s' hs' => ⟨(via_exitCurrent closing_sameSlice s code s' hs').task,
    currentTask_exitCurrent s code s' hs'⟩

/-- The same task runs, with the slice it had, if it has a quota. -/
structure GoesOn (s s' : Sched) : Prop where
  currentTask : s'.currentTask = s.currentTask
  /-- `timeslice` -/
  slice : (s'.task s'.currentTask).Quoted →
    (s'.task s'.currentTask).timeslice = (s.task s.currentTask).timeslice

theorem GoesOn.same (h : GoesOn s s') (hs : SameRun s' s'') : GoesOn s s'' := by
  refine ⟨hs.currentTask.trans h.currentTask, ?_⟩
  rw [hs.currentTask, (hs.task _).quoted, (hs.task _).slice]
  exact h.slice

theorem SameRun.goesOn (h : SameRun s s') : GoesOn s s' :=
  GoesOn.same ⟨rfl, fun _ => rfl⟩ h

theorem GoesOn.freeTaskSlot (h : GoesOn s s') (t : TaskPtr) : GoesOn s (s'.freeTaskSlot t) := by
  cases t with
  | idle => exact h
  | slot i =>
    refine ⟨h.currentTask, fun hq => ?_⟩
    rw [task_freeTaskSlot] at hq ⊢
    split at hq
    · exact absurd hq not_quoted_zero
    · rename_i hne
      rw [if_neg hne]
      exact h.slice hq

theorem GoesOn.watchdogTick (h : GoesOn s s') : GoesOn s s'.watchdogTick := by
  have h' := wdTickAll_rule (P := GoesOn s) (fun _ t _ h => h.freeTaskSlot t) s'.wdTable
    (s := { s' with wdTick := (s'.wdTick + 1) % 2 ^ 32 }) ⟨h.currentTask, h.slice⟩
  exact ⟨h'.currentTask, h'.slice⟩

/-- A slice is no part of the accounting. -/
theorem metering_slice : Metering fun a b =>
    b.cpuQuota = a.cpuQuota ∧ b.timeslice = a.timeslice where
  refl _ := ⟨rfl, rfl⟩
  trans h h' := ⟨h'.1.trans h.1, h'.2.trans h.2⟩
  links _ _ _ := ⟨rfl, rfl⟩
  ready _ := ⟨rfl, rfl⟩
  level _ _ := ⟨rfl, rfl⟩
  contTicks _ _ := ⟨rfl, rfl⟩
  quota _ _ _ := ⟨rfl, rfl⟩

theorem GoesOn.metered (h : GoesOn s s')
    (hv : Via (fun a b => b.cpuQuota = a.cpuQuota ∧ b.timeslice = a.timeslice) s' s'')
    (hcur : s''.currentTask = s'.currentTask) : GoesOn s s'' := by
  refine ⟨hcur.trans h.currentTask, fun hq => ?_⟩
  rw [hcur] at hq ⊢
  unfold Task.Quoted at hq
  rw [(hv.task _).1] at hq
  exact (hv.task _).2.trans (h.slice hq)

/-- **The timer** charges a tick, and leaves the running task its slice. -/
theorem Rested.pitHandler (h : Rested s) :
    Post s.pitHandler fun s' => QuotaInv s' 3 ∧ GoesOn s s' := by
  have hcount : Rested { s with tickCount := (s.tickCount + 1) % 2 ^ 32 } :=
    ⟨⟨h.task, h.idle, h.slice, h.last⟩, h.pos⟩
  have hgoes : GoesOn s { s with tickCount := (s.tickCount + 1) % 2 ^ 32 } := ⟨rfl, fun _ => rfl⟩
  unfold Sched.pitHandler
  simp only
  set s0 : Sched := { s with tickCount := (s.tickCount + 1) % 2 ^ 32 }
  split
  · have hkill := SameRun.modify s0 s0.currentTask
      (f := fun task => { task with killPending := false }) ⟨⟨rfl, rfl, rfl⟩, rfl⟩
    refine (sameRun_exitCurrent _ _).mono fun _ hs => ?_
    exact ⟨hcount.due.same (hkill.trans hs), hgoes.same (hkill.trans hs)⟩
  · have hcharged := hgoes.metered (via_chargeQuota metering_slice s0) rfl
    refine Post.bind (P := fun s' => QuotaInv s' 3 ∧ GoesOn s s') ?_ fun s1 h1 => ?_
    · exact (frame_demote releveling_sameRun _).mono fun _ hs =>
        ⟨hcount.chargeQuota.same hs, hcharged.same hs⟩
    · refine post_periodic (fun s2 h2 => ⟨h2.1.watchdogTick, h2.2.watchdogTick⟩)
        (fun s2 h2 => (frame_taskMlfqAging releveling_sameRun s2).mono fun _ hs =>
          ⟨h2.1.same hs, h2.2.same hs⟩)
        (fun s2 h2 => ⟨h2.1.taskQuotaPeriodReset, ?_⟩) h1
      exact h2.2.metered (via_taskQuotaPeriodReset metering_slice s2) rfl

end Sched

/-! ## Whole runs -/

/-- What happens to tasks with quotas. -/
inductive QuotaEvent where
  /-- an event of the scheduler -/
  | sched (e : SchedEvent)
  /-- the running task blocks, on a wait queue with this head -/
  | block (waitq : Option TaskPtr)
  /-- a task that waits is woken -/
  | wake (t : TaskPtr)

/-- The scheduler with tasks that block and are woken for any reason. A new task has used nothing,
and is created by the idle task or a task in use. -/
def quotaSystem : System Sched QuotaEvent where
  init := schedSystem.init
  allowed s
    | .sched (.create fields) => fields.quotaUsedTicks = 0 ∧
        (s.currentTask = .idle ∨ (s.task s.currentTask).inUse = true)
    | .sched e => schedSystem.allowed s e
    | .block _ => s.currentTask ≠ .idle
    | .wake t => (s.task t).state = .waiting
  step s
    | .sched e => schedSystem.step s e
    | .block waitq => s.block waitq
    | .wake t => some (s.wake t)

namespace Sched

variable {s : Sched}

theorem sameRun_block (s : Sched) (waitq : Option TaskPtr) : Post (s.block waitq) (SameRun s) := by
  refine (block_body s waitq).mono fun _ h => SameRun.trans ?_ (releveling_sameRun.body h)
  exact .modify s _ ⟨⟨rfl, rfl, rfl⟩, rfl⟩

theorem sameRun_wake (s : Sched) (t : TaskPtr) : SameRun s (s.wake t) :=
  (releveling_sameRun.ready s t).trans (releveling_sameRun.body (wake_body s t))

theorem sameRun_watchdogRegister (s : Sched) (path : CStr) (tier : Tier) (t : Option TaskPtr) :
    SameRun s (s.watchdogRegister path tier t).2 :=
  watchdogRegister_rule (P := SameRun s) (fun _ _ h => ⟨h.task, h.currentTask⟩)
    (fun s1 t h => h.trans (.modify s1 t ⟨⟨rfl, rfl, rfl⟩, rfl⟩))
    (Relinking.refl releveling_sameRun.toRelinking s) path tier t

/-- A new task has used nothing, and does not run. -/
theorem Rested.createAndEnqueue (h : Rested s) {fields : Task} (hused : fields.quotaUsedTicks = 0)
    (hcur : s.currentTask = .idle ∨ (s.task s.currentTask).inUse = true) :
    Rested (s.createAndEnqueue fields) ∧ GoesOn s (s.createAndEnqueue fields) := by
  rcases s.createAndEnqueue_cases fields with ⟨-, hsame⟩ | ⟨i, -, -, hfree, hbody⟩
  · rw [hsame]
    exact ⟨h, rfl, fun _ => rfl⟩
  · have hne : s.currentTask ≠ .slot i := by
      rintro hc
      rcases hcur with hidle | huse
      · cases hidle.symm.trans hc
      · rw [hc, hfree] at huse
        cases huse
    set s2 := s.created i fields with hs2
    have hother : ∀ {t}, t ≠ .slot i → s2.task t = s.task t := fun ht => by
      rw [hs2, created, task_modify, if_neg ht]
    have hcur2 : s2.currentTask = s.currentTask := rfl
    have hrun : SameRun s2 (s.createAndEnqueue fields) := releveling_sameRun.body hbody
    suffices hall : Rested s2 ∧ GoesOn s s2 from ⟨hall.1.same hrun, hall.2.same hrun⟩
    refine ⟨⟨⟨fun t hq => ?_, ?_, ?_, ?_⟩, ?_⟩, hcur2, ?_⟩
    · by_cases ht : t = .slot i
      · rw [ht, hs2, created, task_modify, if_pos rfl]
        refine ⟨fun _ => ?_, ?_⟩
        · rw [show Task.quotaUsedTicks _ = 0 from hused]
          exact Nat.lt_of_lt_of_le Nat.one_pos (le_max_left ..)
        · rw [show Task.quotaUsedTicks _ = 0 from hused]
          exact Nat.zero_le _
      · rw [hother ht] at hq ⊢
        exact h.task t hq
    · rw [hother (t := .idle) (fun h => by cases h)]
      exact h.idle
    · rw [hcur2, hother hne]
      exact h.slice
    · rw [hcur2, hother hne]
      exact h.last
    · rw [hcur2, hother hne]
      exact h.pos
    · rw [hcur2, hother hne]
      exact fun _ => rfl

/-- An event up to its call of `schedule`. -/
theorem Rested.before (h : Rested s) {e : SchedEvent}
    (hallowed : quotaSystem.allowed s (.sched e)) :
    Post (e.before s) fun s' =>
      (if e.schedules then QuotaInv s' 3 else Rested s') ∧ GoesOn s s' := by
  have hdue : ∀ {s'}, SameRun s s' → QuotaInv s' 3 ∧ GoesOn s s' := fun hs =>
    ⟨h.due.same hs, hs.goesOn⟩
  have hsame : ∀ {s'}, SameRun s s' → Rested s' ∧ GoesOn s s' := fun hs => ⟨h.same hs, hs.goesOn⟩
  cases e with
  | create fields => exact .some (h.createAndEnqueue hallowed.1 hallowed.2)
  | tick => exact h.pitHandler
  | yield => exact (frame_yieldCurrent releveling_sameRun s).mono fun _ => hdue
  | wait =>
    have hwaiting := SameRun.modify s s.currentTask
      (f := fun task => { task with state := .waiting }) ⟨⟨rfl, rfl, rfl⟩, rfl⟩
    exact (frame_dequeueTask releveling_sameRun.toRelinking _ _).mono fun _ hs =>
      hdue (hwaiting.trans hs)
  | exit code => exact (sameRun_exitCurrent s code).mono fun _ => hdue
  | setTier i tier =>
    refine (frame_taskSetTier releveling_sameRun.toRelinking (fun s => ?_) s).mono fun _ => hsame
    exact .modify s _ ⟨⟨rfl, rfl, rfl⟩, rfl⟩
  | setLevel i level =>
    exact (frame_taskSetMlfqLevel releveling_sameRun s _ level).mono fun _ => hsame
  | schedule => exact .some (hdue (Relinking.refl releveling_sameRun.toRelinking s))
  | kill i => exact .some (hsame (.modify s _ ⟨⟨rfl, rfl, rfl⟩, rfl⟩))
  | register path tier i => exact .some (hsame (sameRun_watchdogRegister s path tier _))
  | reap i => exact .some ⟨h.freeTaskSlot i, GoesOn.freeTaskSlot ⟨rfl, fun _ => rfl⟩ _⟩

/-- A task that is marked and runs was running before, and has no more of its slice. -/
def NotPicked (s s' : Sched) : Prop :=
  (s'.task s'.currentTask).Quoted → (s'.task s'.currentTask).quotaDone = true →
    s.currentTask = s'.currentTask ∧
      (s'.task s'.currentTask).timeslice ≤ (s.task s'.currentTask).timeslice

theorem GoesOn.notPicked (h : GoesOn s s') : NotPicked s s' := by
  intro hq _
  refine ⟨h.currentTask.symm, (h.slice hq).le.trans_eq ?_⟩
  rw [h.currentTask]

theorem Rested.schedules {s1 : Sched} (h : QuotaInv s1 3) (hgoes : GoesOn s s1) :
    Post s1.schedule fun s' => Rested s' ∧ NotPicked s s' := by
  intro s' hs'
  have hrested := h.schedule s' hs'
  have htask := (via_schedule scheduling_sameQuota s1 s' hs').task
  refine ⟨hrested, fun hq hd => ?_⟩
  rcases outcome_schedule s1 s' hs' with hout | ⟨hleft, -⟩ | ⟨hsame, -, hle⟩
  · rw [hout] at hq
    have := hrested.idle
    exact absurd hq.1 (by omega)
  · cases hleft.symm.trans hd
  · rw [hsame, (htask _).quoted] at hq
    refine ⟨(hsame.trans hgoes.currentTask).symm, ?_⟩
    have hslice := hgoes.slice hq
    rw [← hgoes.currentTask, ← hsame] at hslice
    rw [← hsame] at hle
    omega

/-- **One event.** -/
theorem Rested.step (h : Rested s) {e : QuotaEvent} (hallowed : quotaSystem.allowed s e) :
    Post (quotaSystem.step s e) fun s' => Rested s' ∧ NotPicked s s' := by
  cases e with
  | block waitq =>
    exact (sameRun_block s waitq).mono fun _ hs => ⟨h.same hs, hs.goesOn.notPicked⟩
  | wake t =>
    have hwake := sameRun_wake s t
    exact .some ⟨h.same hwake, hwake.goesOn.notPicked⟩
  | sched e =>
    refine (h.before hallowed).bind fun s1 h1 => ?_
    cases hsched : e.schedules with
    | true =>
      rw [hsched] at h1
      exact Rested.schedules h1.1 h1.2
    | false =>
      rw [hsched] at h1
      exact .some ⟨h1.1, h1.2.notPicked⟩

theorem rested_taskInit (pageDirectory : ℕ) : Rested (taskInit pageDirectory) := by
  have htask : ∀ t, ((taskInit pageDirectory).task t).cpuQuota = 0 := fun t => by cases t <;> rfl
  have hquoted : ∀ {t}, ¬((taskInit pageDirectory).task t).Quoted := by
    rintro t ⟨hq, -⟩
    rw [htask] at hq
    omega
  exact ⟨⟨fun _ hq => absurd hq hquoted, rfl, .inl rfl, fun hq => absurd hq hquoted⟩,
    fun hq => absurd hq hquoted⟩

theorem rested_of_reachable (h : quotaSystem.Reachable s) : Rested s := by
  refine h.invariant (I := Rested) ?_ fun s e s' hI hallowed hstep =>
    (hI.step hallowed s' hstep).1
  rintro s ⟨pageDirectory, rfl⟩
  exact rested_taskInit pageDirectory

/-- **Quotas are enforced.** In every run a task with a quota uses at most two ticks more than the
quota in a period; and no event selects a task whose quota is used up: it runs only if it was
running, and gets no new slice. -/
theorem quota_enforced (s : Sched) (hs : quotaSystem.Reachable s) :
    (∀ t, 1 ≤ (s.task t).cpuQuota → (s.task t).cpuQuota ≤ 100 →
      (s.task t).quotaUsedTicks ≤ max 1 (1000 * (s.task t).cpuQuota / 100) + 2) ∧
    ∀ e s', quotaSystem.allowed s e → quotaSystem.step s e = some s' →
      ∀ t, 1 ≤ (s'.task t).cpuQuota → (s'.task t).cpuQuota ≤ 100 →
        (s'.task t).quotaDone = true → s'.currentTask = t →
        s.currentTask = t ∧ (s'.task t).timeslice ≤ (s.task t).timeslice := by
  have hrested := rested_of_reachable hs
  refine ⟨fun t hpos hle => (hrested.task t ⟨hpos, hle⟩).most, ?_⟩
  rintro e s' hallowed hstep _ hpos hle hdone rfl
  exact (hrested.step hallowed s' hstep).2 ⟨hpos, hle⟩ hdone

/-- A task with a quota of one percent starts a slice when it has used nine ticks. -/
def lateSlice : List QuotaEvent :=
  .sched (.create { Task.zero with tier := .user, cpuQuota := 1 }) ::
    (List.replicate 9 (.sched .tick) ++ [.sched (.setLevel 0 0), .sched .tick])

/-- It goes on after the tick that uses its quota up, in the slice it has. -/
theorem quota_enforced_lateSlice : ∃ s s', quotaSystem.Reachable s ∧
    quotaSystem.step s (.sched .tick) = some s' ∧ (s'.task (.slot 0)).quotaDone = true ∧
    s'.currentTask = .slot 0 ∧ (s'.task (.slot 0)).quotaUsedTicks ≤ 12 ∧
    s.currentTask = .slot 0 ∧ (s'.task (.slot 0)).timeslice ≤ (s.task (.slot 0)).timeslice := by
  obtain ⟨s, hs, s', hstep, hquota', hdone, hcur⟩ := System.exists_reachable (S := quotaSystem)
    (fun s e => (match e with
      | .sched (.create fields) => fields.quotaUsedTicks = 0 ∧ s.currentTask = .idle
      | .sched .tick => true
      | .sched (.setLevel _ _) => true
      | _ => false : Bool)) lateSlice
    (fun s => ∃ s' ∈ quotaSystem.step s (.sched .tick), (s'.task (.slot 0)).cpuQuota = 1 ∧
      (s'.task (.slot 0)).quotaDone = true ∧ s'.currentTask = .slot 0)
    (fun s e he => by
      split at he
      · exact (of_decide_eq_true he).imp_right .inl
      · trivial
      · trivial
      · cases he) (.init ⟨0, rfl⟩) (by decide +kernel)
  have htick : quotaSystem.allowed s (.sched .tick) := trivial
  have hused := (quota_enforced s' (hs.step htick hstep)).1 (.slot 0) (by omega) (by omega)
  rw [hquota'] at hused
  exact ⟨s, s', hs, hstep, hdone, hcur, hused,
    (quota_enforced s hs).2 _ s' htick hstep (.slot 0) (by omega) (by omega) hdone hcur⟩

end Sched

end PokuOS
