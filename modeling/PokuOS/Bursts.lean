import PokuOS.Quota

/-!
# Demotion

`pit_handler` counts the ticks of a user task in `mlfq_cont_ticks` and demotes the task when the
count reaches `MLFQ_DEMOTE_TICKS`. The count is meant to start anew when the task yields or its
level changes. Most writes agree with that (`Resets`): the count is cleared by a demotion, by
`yield` and when a waiting task is woken by its child. `task_mlfq_aging` alone changes a level and
leaves the count.

`charged` is the number of ticks charged to a task since its level last changed or it last
yielded: a variable of the proof, kept beside the state of the scheduler. As long as aging
promotes no task in the middle of a burst, `mlfq_cont_ticks` is at most that number.
-/

namespace PokuOS

open Function Option Sched

/-! ## What a task's count does -/

/-- The count does not grow, is zero after a change of level, and zero for tasks other than user
tasks. -/
structure Resets (a b : Task) : Prop where
  /-- at the same level it does not grow -/
  same : b.mlfqLevel = a.mlfqLevel → b.mlfqContTicks ≤ a.mlfqContTicks
  /-- at a new level it is zero -/
  changed : b.mlfqLevel ≠ a.mlfqLevel → b.mlfqContTicks = 0
  /-- only user tasks have one -/
  other : (a.tier ≠ .user → a.mlfqContTicks = 0) → b.tier ≠ .user → b.mlfqContTicks = 0

namespace Resets

variable {a b c : Task}

theorem of_zero (h : b.mlfqContTicks = 0) : Resets a b :=
  ⟨fun _ => h ▸ Nat.zero_le _, fun _ => h, fun _ _ => h⟩

/-- Level, count and tier are the same. -/
theorem of_eq (hlevel : b.mlfqLevel = a.mlfqLevel) (hcount : b.mlfqContTicks = a.mlfqContTicks)
    (htier : b.tier = a.tier) : Resets a b := by
  refine ⟨fun _ => hcount.le, fun hne => absurd hlevel hne, fun ha hb => ?_⟩
  rw [hcount]
  exact ha (htier ▸ hb)

theorem trans (h : Resets a b) (h' : Resets b c) : Resets a c := by
  refine ⟨fun hca => ?_, fun hca => ?_, fun ha => h'.other (h.other ha)⟩
  · by_cases hba : b.mlfqLevel = a.mlfqLevel
    · exact (h'.same (hca.trans hba.symm)).trans (h.same hba)
    · rw [h'.changed fun hcb => hba (hcb.symm.trans hca)]
      exact Nat.zero_le _
  · by_cases hcb : c.mlfqLevel = b.mlfqLevel
    · have hb := h.changed fun hba => hca (hcb.trans hba)
      exact Nat.le_zero.mp (hb ▸ h'.same hcb)
    · exact h'.changed hcb

end Resets

theorem scheduling_resets : Scheduling Resets where
  refl _ := .of_eq rfl rfl rfl
  trans := .trans
  links _ _ _ := .of_eq rfl rfl rfl
  ready _ := .of_eq rfl rfl rfl
  running _ := .of_eq rfl rfl rfl
  timeslice _ _ := .of_eq rfl rfl rfl

theorem queueing_resets : Queueing Resets := scheduling_resets.toQueueing

theorem closing_resets : Closing Resets where
  toQueueing := queueing_resets
  woken a _ := by
    by_cases htier : a.tier = .user
    · exact .of_zero (if_pos htier)
    · exact .of_eq (if_neg htier) (if_neg htier) rfl
  ended _ _ := .of_eq rfl rfl rfl
  orphan _ := .of_eq rfl rfl rfl

/-- Whether `task_mlfq_aging` promotes the task. -/
def Task.Ages (task : Task) : Prop :=
  task.inUse ∧ task.tier = .user ∧ 0 < task.mlfqLevel ∧ ¬ task.quotaDone ∧
    (task.state = .ready ∨ task.state = .running)

/-- Aging does not promote the task **in the middle of a burst**. -/
def Task.Fresh (task : Task) : Prop := task.Ages → task.mlfqContTicks = 0

instance (task : Task) : Decidable task.Ages := inferInstanceAs (Decidable (_ ∧ _))

instance (task : Task) : Decidable task.Fresh := inferInstanceAs (Decidable (_ → _))

namespace Sched

variable {s s' : Sched}

/-- A new level for a task that has no count. -/
theorem resets_taskSetMlfqLevel {t : TaskPtr} (hzero : (s.task t).mlfqContTicks = 0) (level : ℤ) :
    Post (s.taskSetMlfqLevel t level) fun s' =>
      Via Resets s s' ∧ (s'.task t).mlfqContTicks = 0 := by
  refine (taskSetMlfqLevel_body s t level).mono fun s' h' => ?_
  refine ⟨Via.trans queueing_resets (.modify queueing_resets s t (.of_zero hzero))
    (.of_body queueing_resets h'), ?_⟩
  rw [task_read Task.mlfqContTicks (fun _ => rfl) h', task_modify, if_pos rfl]
  exact hzero

/-- **Yielding** clears the count of a user task. -/
theorem resets_yieldCurrent (s : Sched) :
    Post s.yieldCurrent fun s' => Via Resets s s' ∧ s'.currentTask = s.currentTask ∧
      ((s.task s.currentTask).tier = .user → (s'.task s.currentTask).mlfqContTicks = 0) := by
  have hstays := frame_yieldCurrent releveling_stays s
  suffices h : Post s.yieldCurrent fun s' => Via Resets s s' ∧
      ((s.task s.currentTask).tier = .user → (s'.task s.currentTask).mlfqContTicks = 0) from
    fun s' hs' => ⟨(h s' hs').1, (hstays s' hs').currentTask, (h s' hs').2⟩
  refine Post.bind (P := fun s' => Via Resets s s' ∧
      ((s.task s.currentTask).tier = .user → (s'.task s.currentTask).mlfqContTicks = 0)) ?_
    fun s1 h1 => .some ⟨h1.1.trans queueing_resets
      (.modify queueing_resets _ _ (scheduling_resets.ready _)), fun htier => ?_⟩
  · split
    · -- a user task
      have hclear : Via Resets s
          (s.modify s.currentTask fun task => { task with mlfqContTicks := 0 }) :=
        .modify queueing_resets s _ (.of_zero rfl)
      have hzero : ((s.modify s.currentTask fun task => { task with mlfqContTicks := 0 }).task
          s.currentTask).mlfqContTicks = 0 := by
        rw [task_modify, if_pos rfl]
      simp only
      split
      · exact (resets_taskSetMlfqLevel hzero _).mono fun s1 h1 =>
          ⟨hclear.trans queueing_resets h1.1, fun _ => h1.2⟩
      · exact .some ⟨hclear, fun _ => hzero⟩
    · rename_i htier
      exact .some ⟨.refl queueing_resets s, fun h => absurd h htier⟩
  · rw [setState, task_modify, if_pos rfl]
    exact h1.2 htier

/-! ## The timer -/

/-- The tick counts for the running task. -/
def Counts (s : Sched) : Prop :=
  (s.task s.currentTask).tier = .user ∧ ¬ (s.task s.currentTask).quotaDone

instance (s : Sched) : Decidable s.Counts := inferInstanceAs (Decidable (_ ∧ _))

/-- The tick is counted. -/
def counted (s : Sched) : Sched :=
  if s.Counts then
    s.modify s.currentTask fun task => { task with mlfqContTicks := task.mlfqContTicks + 1 }
  else s

theorem level_counted (s : Sched) (t : TaskPtr) :
    (s.counted.task t).mlfqLevel = (s.task t).mlfqLevel := by
  unfold counted
  split
  · exact read_modify Task.mlfqLevel (fun _ => by rfl) ..
  · rfl

/-- **A demotion** clears the count, and is made only when it is full. -/
theorem resets_demote (s : Sched) :
    Post s.demote fun s' => Via Resets s.counted s' ∧
      ((s'.task s.currentTask).mlfqLevel ≠ (s.task s.currentTask).mlfqLevel →
        s.Counts ∧ mlfqDemoteTicks ≤ (s.counted.task s.currentTask).mlfqContTicks) := by
  unfold demote
  simp only
  split
  · rename_i hcounts
    have hcounted : s.counted = s.modify s.currentTask fun task =>
        { task with mlfqContTicks := task.mlfqContTicks + 1 } := if_pos hcounts
    rw [← hcounted]
    split
    · rename_i hfull
      refine (taskSetMlfqLevel_body _ _ _).bind fun s1 h1 => .some ⟨?_, fun _ => ⟨hcounts, hfull.1⟩⟩
      have hbody := body_modify_congr h1 s.currentTask (f := fun task =>
        { task with mlfqContTicks := 0 }) fun _ => rfl
      rw [modify_modify] at hbody
      exact Via.trans queueing_resets (.modify queueing_resets _ _ (.of_zero rfl))
        (.of_body queueing_resets hbody)
    · exact .some ⟨.refl queueing_resets _, fun hne => absurd (level_counted s _) hne⟩
  · rename_i hcounts
    have hcounted : s.counted = s := if_neg hcounts
    rw [hcounted]
    exact .some ⟨.refl queueing_resets s, fun hne => absurd rfl hne⟩

/-- Aging, where it promotes no task in the middle of a burst. -/
theorem resets_ageTask {s : Sched} (hfresh : ∀ i, (s.task (.slot i)).Fresh) (i : Fin maxTasks) :
    Post (s.ageTask i) fun s' => Via Resets s s' ∧ ∀ i, (s'.task (.slot i)).Fresh := by
  unfold ageTask
  simp only
  split
  · rename_i hages
    have hzero := hfresh i hages
    refine (taskSetMlfqLevel_body s _ _).mono fun s1 h1 => ⟨?_, fun j => ?_⟩
    · exact Via.trans queueing_resets (.modify queueing_resets s _ (.of_zero hzero))
        (.of_body queueing_resets h1)
    · rw [task_read Task.Fresh (fun _ => rfl) h1, task_modify]
      split
      · exact fun _ => hzero
      · exact hfresh j
  · exact .some ⟨.refl queueing_resets s, hfresh⟩

theorem resets_taskMlfqAging (hfresh : ∀ i, (s.task (.slot i)).Fresh) :
    Post s.taskMlfqAging (Via Resets s) := by
  have hloop : Post s.taskMlfqAging fun s' => Via Resets s s' ∧ ∀ i, (s'.task (.slot i)).Fresh := by
    refine Post.foldlM (fun s1 i h1 => ?_) _ ⟨.refl queueing_resets s, hfresh⟩
    exact (resets_ageTask h1.2 i).mono fun _ h => ⟨h1.1.trans queueing_resets h.1, h.2⟩
  exact hloop.mono fun _ h => h.1

/-- The watchdog frees slots of ended tasks. -/
theorem resets_watchdogTick (s : Sched) :
    (∀ t, Resets (s.task t) (s.watchdogTick.task t)) ∧
      ((∀ i, (s.task (.slot i)).Fresh) → ∀ i, (s.watchdogTick.task (.slot i)).Fresh) ∧
      s.watchdogTick.tickCount = s.tickCount := by
  refine wdTickAll_rule (P := fun s' => (∀ t, Resets (s.task t) (s'.task t)) ∧
      ((∀ i, (s.task (.slot i)).Fresh) → ∀ i, (s'.task (.slot i)).Fresh) ∧
      s'.tickCount = s.tickCount) (fun s1 t _ h1 => ?_) s.wdTable
    (s := { s with wdTick := (s.wdTick + 1) % 2 ^ 32 }) ⟨fun _ => queueing_resets.refl _,
      fun h => h, rfl⟩
  obtain ⟨hresets, hfresh, hcount⟩ := h1
  cases t with
  | idle => exact ⟨hresets, hfresh, hcount⟩
  | slot j =>
    refine ⟨fun t => ?_, fun h i => ?_, hcount⟩
    · rw [task_freeTaskSlot]
      split
      · exact .of_zero rfl
      · exact hresets t
    · rw [task_freeTaskSlot]
      split
      · exact fun _ => rfl
      · exact hfresh h i

theorem resets_taskQuotaPeriodReset (s : Sched) (t : TaskPtr) :
    Resets (s.task t) (s.taskQuotaPeriodReset.task t) := by
  cases t with
  | idle => exact .of_eq rfl rfl rfl
  | slot i =>
    simp only [taskQuotaPeriodReset]
    split <;> exact .of_eq rfl rfl rfl

/-- **The periodic work**, where aging promotes no task in the middle of a burst. -/
theorem resets_periodic
    (hfresh : s.tickCount % mlfqAgingTicks = 0 → ∀ i, (s.task (.slot i)).Fresh) :
    Post s.periodic fun s' => ∀ t, Resets (s.task t) (s'.task t) := by
  rw [periodic_eq]
  set s1 := if s.tickCount % 50 = 0 then s.watchdogTick else s with hs1
  obtain ⟨hresets1, hfresh1, hcount1⟩ : (∀ t, Resets (s.task t) (s1.task t)) ∧
      ((∀ i, (s.task (.slot i)).Fresh) → ∀ i, (s1.task (.slot i)).Fresh) ∧
      s1.tickCount = s.tickCount := by
    rw [hs1]
    split
    · exact resets_watchdogTick s
    · exact ⟨fun _ => queueing_resets.refl _, fun h => h, rfl⟩
  refine Post.bind (P := fun s' => ∀ t, Resets (s.task t) (s'.task t)) ?_ fun s2 h2 => .some ?_
  · split
    · rename_i haging
      rw [hcount1] at haging
      exact (resets_taskMlfqAging (hfresh1 (hfresh haging))).mono fun _ h t =>
        (hresets1 t).trans (h.task t)
    · exact .some hresets1
  · split
    · exact fun t => (h2 t).trans (resets_taskQuotaPeriodReset s2 t)
    · exact h2

end Sched

/-! ## Counting the ticks of a burst -/

/-- The scheduler, and for each task the ticks charged to it since its level last changed or it
last yielded. -/
structure BurstState where
  /-- the scheduler -/
  sched : Sched
  /-- the ticks of the burst -/
  charged : TaskPtr → ℕ

namespace BurstState

variable {st : BurstState} {s : Sched}

/-- The scheduler goes on to `s`; **a change of level starts a burst**. -/
def after (st : BurstState) (s : Sched) : BurstState where
  sched := s
  charged t := if (s.task t).mlfqLevel = (st.sched.task t).mlfqLevel then st.charged t else 0

/-- `pit_handler` up to the test for a demotion: the tick is charged. -/
def charge (st : BurstState) : BurstState :=
  let s := { st.sched with tickCount := (st.sched.tickCount + 1) % 2 ^ 32 }.chargeQuota
  { sched := s
    charged := if s.Counts then
      update st.charged s.currentTask (st.charged s.currentTask + 1) else st.charged }

/-- The running task is to die. -/
def Dying (st : BurstState) : Prop := (st.sched.task st.sched.currentTask).killPending

instance (st : BurstState) : Decidable st.Dying := inferInstanceAs (Decidable (_ = true))

/-- The timer interrupt. -/
def tick (st : BurstState) : Option BurstState :=
  if st.Dying then do
    let s ← st.sched.pitHandler
    let s ← s.schedule
    return st.after s
  else do
    let st := st.charge
    let s ← st.sched.demote
    let st := st.after s
    let s ← st.sched.periodic
    let st := st.after s
    let s ← st.sched.schedule
    return st.after s

/-- `yield`. -/
def yield (st : BurstState) : Option BurstState := do
  let s ← st.sched.yieldCurrent
  let st := st.after s
  let st := { st with charged := update st.charged s.currentTask 0 }
  let s ← st.sched.schedule
  return st.after s

/-- A task is created. -/
def create (st : BurstState) (fields : Task) : BurstState where
  sched := st.sched.createAndEnqueue fields
  charged := match st.sched.createTaskSlot.1 with
    | some i => update st.charged (.slot i) 0
    | none => st.charged

end BurstState

/-- The scheduler with tasks that block and are woken for any reason, and the bursts. A new task
is at level 0 and has used nothing; levels and tiers are changed by the scheduler alone. -/
def burstSystem : System BurstState QuotaEvent where
  init st := schedSystem.init st.sched ∧ st.charged = fun _ => 0
  allowed st
    | .sched (.create fields) => fields.mlfqLevel = 0 ∧ fields.mlfqContTicks = 0
    | .sched (.setTier _ _) => False
    | .sched (.setLevel _ _) => False
    | e => quotaSystem.allowed st.sched e
  step st
    | .sched (.create fields) => some (st.create fields)
    | .sched .tick => st.tick
    | .sched .yield => st.yield
    | e => (quotaSystem.step st.sched e).map st.after

/-- The tick does not make aging promote a task in the middle of a burst. -/
def AgesFresh (st : BurstState) (e : QuotaEvent) : Prop :=
  e = .sched .tick → ¬ st.Dying → st.charge.sched.tickCount % mlfqAgingTicks = 0 →
    ∀ s, st.charge.sched.demote = some s → ∀ i, (s.task (.slot i)).Fresh

namespace BurstState

variable {st st' : BurstState} {s : Sched}

/-- **The bursts are only watched**: the scheduler does what it does without them. -/
theorem sched_step (st : BurstState) (e : QuotaEvent) :
    (burstSystem.step st e).map sched = quotaSystem.step st.sched e := by
  have hafter : ∀ x : Option Sched, (x.map st.after).map sched = x := fun x => by
    cases x <;> rfl
  cases e with
  | block waitq => exact hafter _
  | wake t => exact hafter (some (st.sched.wake t))
  | sched e =>
    cases e with
    | create fields => rfl
    | tick =>
      change (st.tick).map sched = st.sched.pitHandler >>= schedule
      by_cases hdying : st.Dying
      · simp only [tick, if_pos hdying]
        cases st.sched.pitHandler with
        | none => rfl
        | some s1 =>
          simp only [bind_eq_bind, bind_some]
          cases s1.schedule <;> rfl
      · have hpit : st.sched.pitHandler = st.charge.sched.demote >>= periodic :=
          if_neg hdying
        simp only [tick, if_neg hdying, hpit]
        cases st.charge.sched.demote with
        | none => rfl
        | some s1 =>
          simp only [bind_eq_bind, bind_some, after]
          cases s1.periodic with
          | none => rfl
          | some s2 =>
            simp only [bind_some]
            cases s2.schedule <;> rfl
    | yield =>
      change (st.yield).map sched = st.sched.yieldCurrent >>= schedule
      simp only [yield]
      cases st.sched.yieldCurrent with
      | none => rfl
      | some s1 =>
        simp only [bind_eq_bind, bind_some, after]
        cases s1.schedule <;> rfl
    | wait => exact hafter _
    | exit code => exact hafter _
    | setTier i tier => exact hafter _
    | setLevel i level => exact hafter _
    | schedule => exact hafter _
    | kill i => exact hafter (quotaSystem.step st.sched (.sched (.kill i)))
    | register path tier i =>
      exact hafter (quotaSystem.step st.sched (.sched (.register path tier i)))
    | reap i => exact hafter (quotaSystem.step st.sched (.sched (.reap i)))

/-- The count is at most the ticks of the burst, and only user tasks have one. -/
structure Ok (st : BurstState) : Prop where
  /-- the count -/
  le : ∀ t, (st.sched.task t).mlfqContTicks ≤ st.charged t
  /-- other tasks -/
  other : ∀ t, (st.sched.task t).tier ≠ .user → (st.sched.task t).mlfqContTicks = 0

theorem Ok.after (h : st.Ok) (hresets : ∀ t, Resets (st.sched.task t) (s.task t)) :
    (st.after s).Ok := by
  refine ⟨fun t => ?_, fun t => (hresets t).other (h.other t)⟩
  simp only [BurstState.after]
  split
  · rename_i hlevel
    exact ((hresets t).same hlevel).trans (h.le t)
  · rename_i hlevel
    exact ((hresets t).changed hlevel).le

/-- **A tick is charged and counted.** -/
theorem Ok.charge (h : st.Ok) : Ok ⟨st.charge.sched.counted, st.charge.charged⟩ := by
  have hquota : ∀ t, Resets (st.sched.task t) (st.charge.sched.task t) ∧
      (st.charge.sched.task t).mlfqContTicks = (st.sched.task t).mlfqContTicks := fun t => by
    simp only [BurstState.charge, chargeQuota, task_modify]
    split
    · rename_i ht
      subst ht
      split <;> exact ⟨.of_eq rfl rfl rfl, rfl⟩
    · exact ⟨.of_eq rfl rfl rfl, rfl⟩
  have hother : ∀ t, (st.charge.sched.task t).tier ≠ .user →
      (st.charge.sched.task t).mlfqContTicks = 0 := fun t => (hquota t).1.other (h.other t)
  have hle : ∀ t, (st.charge.sched.task t).mlfqContTicks ≤ st.charged t := fun t => by
    rw [(hquota t).2]
    exact h.le t
  by_cases hcounts : st.charge.sched.Counts
  · have hcharged : st.charge.charged = update st.charged st.charge.sched.currentTask
        (st.charged st.charge.sched.currentTask + 1) := if_pos hcounts
    refine ⟨fun t => ?_, fun t => ?_⟩
    · simp only [counted, if_pos hcounts, hcharged, task_modify,
        update_apply]
      split
      · exact Nat.succ_le_succ (hle _)
      · exact hle t
    · simp only [counted, if_pos hcounts, task_modify]
      split
      · exact fun htier => absurd hcounts.1 htier
      · exact hother t
  · have hcharged : st.charge.charged = st.charged := if_neg hcounts
    refine ⟨fun t => ?_, fun t => ?_⟩
    · simp only [counted, if_neg hcounts, hcharged]
      exact hle t
    · simp only [counted, if_neg hcounts]
      exact hother t

/-- The test for a demotion, after the tick was charged. -/
theorem Ok.demote (h : st.Ok) (hstep : st.charge.sched.demote = some s) :
    (st.charge.after s).Ok := by
  have hresets := (resets_demote st.charge.sched s hstep).1
  have hok := h.charge.after hresets.task
  refine ⟨fun t => ?_, hok.other⟩
  have hle := hok.le t
  simp only [BurstState.after, level_counted] at hle ⊢
  exact hle

theorem Ok.schedule (h : st.Ok) (hstep : st.sched.schedule = some s) : (st.after s).Ok :=
  h.after (via_schedule scheduling_resets st.sched s hstep).task

/-- **The timer interrupt**, where aging promotes no task in the middle of a burst. -/
theorem Ok.tick (h : st.Ok) (hfresh : AgesFresh st (.sched .tick)) : Post st.tick Ok := by
  unfold BurstState.tick
  split
  · -- the task dies
    rename_i hdying
    have hpit : st.sched.pitHandler = ({ st.sched with
        tickCount := (st.sched.tickCount + 1) % 2 ^ 32 }.modify st.sched.currentTask fun task =>
        { task with killPending := false }).exitCurrent (-9) := if_pos hdying
    rw [hpit]
    refine (via_exitCurrent closing_resets _ _).bind fun s1 h1 => ?_
    refine (via_schedule scheduling_resets s1).bind fun s2 h2 => .some (h.after fun t => ?_)
    have hmark := Sched.Via.modify queueing_resets
      { st.sched with tickCount := (st.sched.tickCount + 1) % 2 ^ 32 } st.sched.currentTask
      (f := fun task => { task with killPending := false }) (.of_eq rfl rfl rfl)
    exact (hmark.task t).trans ((h1.task t).trans (h2.task t))
  · rename_i hdying
    have hdemote : Post st.charge.sched.demote fun s => (st.charge.after s).Ok ∧
        s.tickCount = st.charge.sched.tickCount ∧ st.charge.sched.demote = some s :=
      fun s hs => ⟨h.demote hs, (resets_demote _ s hs).1.tickCount.trans
        (by unfold counted; split <;> rfl), hs⟩
    refine hdemote.bind fun s1 h1 => ?_
    have hages : s1.tickCount % mlfqAgingTicks = 0 → ∀ i, (s1.task (.slot i)).Fresh := fun hage =>
      hfresh rfl hdying (h1.2.1 ▸ hage) s1 h1.2.2
    refine (resets_periodic hages).bind fun s2 h2 => ?_
    have hok2 : ((st.charge.after s1).after s2).Ok := h1.1.after h2
    intro st' hst'
    obtain ⟨s3, hs3, hst'⟩ := bind_eq_some_iff.mp hst'
    cases hst'
    exact hok2.schedule hs3

theorem Ok.yield (h : st.Ok) : Post st.yield Ok := by
  refine (resets_yieldCurrent st.sched).bind fun s1 h1 => ?_
  obtain ⟨hresets, hcur, hzero⟩ := h1
  have hok1 := h.after hresets.task
  have hclear : Ok { st.after s1 with
      charged := update (st.after s1).charged s1.currentTask 0 } := by
    refine ⟨fun t => ?_, hok1.other⟩
    change (s1.task t).mlfqContTicks ≤
      update (st.after s1).charged s1.currentTask 0 t
    by_cases ht : t = s1.currentTask
    · rw [ht, update_self]
      by_cases htier : (st.sched.task st.sched.currentTask).tier = .user
      · rw [hcur]
        exact (hzero htier).le
      · have hcount := (hresets.task st.sched.currentTask)
        have hself := h.other _ htier
        rw [hcur]
        by_cases hlevel : (s1.task st.sched.currentTask).mlfqLevel =
            (st.sched.task st.sched.currentTask).mlfqLevel
        · exact hself ▸ hcount.same hlevel
        · exact (hcount.changed hlevel).le
    · rw [update_of_ne ht]
      exact hok1.le t
  intro st' hst'
  obtain ⟨s2, hs2, hst'⟩ := bind_eq_some_iff.mp hst'
  cases hst'
  exact hclear.schedule hs2

theorem Ok.create (h : st.Ok) {fields : Task} (hcount : fields.mlfqContTicks = 0) :
    (st.create fields).Ok := by
  rcases st.sched.createAndEnqueue_cases fields with ⟨hslot, hsame⟩ | ⟨i, s1, hslot, -, hbody⟩
  · simp only [BurstState.create, hslot, hsame]
    exact h
  · have hcounts := task_read Task.mlfqContTicks (fun _ => rfl) hbody
    have htiers := task_read Task.tier (fun _ => rfl) hbody
    simp only [BurstState.create, hslot]
    refine ⟨fun t => ?_, fun t => ?_⟩
    · simp only [hcounts, created, task_modify, update_apply]
      split
      · exact hcount.le
      · exact h.le t
    · simp only [hcounts, htiers, created, task_modify]
      split
      · exact fun _ => hcount
      · exact h.other t

/-- An event that neither charges a tick nor creates a task. -/
theorem Ok.other_step (h : st.Ok) {x : Option Sched}
    (hx : Post x fun s => ∀ t, Resets (st.sched.task t) (s.task t)) : Post (x.map st.after) Ok :=
  hx.map fun _ hs => h.after hs

theorem resets_scheduled {x : Option Sched}
    (hx : Post x fun s => ∀ t, Resets (st.sched.task t) (s.task t)) :
    Post (x >>= Sched.schedule) fun s => ∀ t, Resets (st.sched.task t) (s.task t) :=
  hx.bind fun s1 h1 => (via_schedule scheduling_resets s1).mono fun _ h2 t =>
    (h1 t).trans (h2.task t)

/-- **One event.** -/
theorem Ok.step (h : st.Ok) {e : QuotaEvent} (hallowed : burstSystem.allowed st e)
    (hfresh : AgesFresh st e) : Post (burstSystem.step st e) Ok := by
  have hR := queueing_resets
  cases e with
  | block waitq =>
    refine h.other_step ((block_body st.sched waitq).mono fun s1 h1 => ?_)
    exact (Sched.Via.trans hR (.modify hR st.sched _ (.of_eq rfl rfl rfl)) (.of_body hR h1)).task
  | wake w =>
    have hready : Sched.Via Resets st.sched (st.sched.setState w .ready) :=
      .modify hR st.sched w (scheduling_resets.ready _)
    exact h.other_step (x := some _)
      (.some (hready.trans hR (.of_body hR (wake_body st.sched w))).task)
  | sched e =>
    cases e with
    | create fields => exact .some (h.create hallowed.2)
    | tick => exact h.tick hfresh
    | yield => exact h.yield
    | wait =>
      exact h.other_step (resets_scheduled ((via_waitCurrent hR
        (fun _ => .of_eq rfl rfl rfl) st.sched).mono fun _ h1 => h1.task))
    | exit code =>
      exact h.other_step (resets_scheduled
        ((via_exitCurrent closing_resets st.sched code).mono fun _ h1 => h1.task))
    | setTier i tier => exact hallowed.elim
    | setLevel i level => exact hallowed.elim
    | schedule => exact h.other_step (resets_scheduled (.some fun _ => hR.refl _))
    | kill i =>
      have hmark := Sched.Via.modify hR st.sched (.slot i)
        (f := fun task => { task with killPending := true }) (.of_eq rfl rfl rfl)
      exact h.other_step (x := some _) (.some hmark.task)
    | register path tier i =>
      refine h.other_step (x := some _) (.some ?_)
      refine watchdogRegister_rule (P := fun s => ∀ t, Resets (st.sched.task t) (s.task t))
        (fun _ _ h => h) (fun s1 i h1 t => ?_) (fun _ => hR.refl _) path tier _
      exact (h1 t).trans ((Sched.Via.modify hR s1 i (.of_eq rfl rfl rfl)).task t)
    | reap i =>
      refine h.other_step (x := some _) (.some fun t => ?_)
      rw [task_freeTaskSlot]
      split
      · exact .of_zero rfl
      · exact hR.refl _

theorem Ok.init (h : burstSystem.init st) : st.Ok := by
  obtain ⟨⟨pageDirectory, hsched⟩, -⟩ := h
  have hzero : ∀ t, (st.sched.task t).mlfqContTicks = 0 := fun t => by
    rw [hsched]
    cases t <;> rfl
  exact ⟨fun t => hzero t ▸ Nat.zero_le _, fun t _ => hzero t⟩

/-- `pit_handler` demotes the running task at the next tick. -/
def Demotes (st : BurstState) : Prop :=
  ¬ st.Dying ∧ ∃ s, st.charge.sched.demote = some s ∧
    (s.task st.sched.currentTask).mlfqLevel = (st.sched.task st.sched.currentTask).mlfqLevel + 1

end BurstState

/-- **Demotion needs a full burst**, in runs in which aging promotes no task in the middle of one:
whenever `pit_handler` demotes a task, at least three ticks have been charged to it since its level
last changed or it last yielded. -/
theorem demotion_needs_burst {st : BurstState}
    (h : (burstSystem.restrict AgesFresh).Reachable st) (hdemotes : st.Demotes) :
    mlfqDemoteTicks ≤ st.charge.charged st.sched.currentTask := by
  have hok : st.Ok := by
    refine h.invariant ?_ ?_
    · intro st hinit
      exact .init hinit
    · rintro st e st' hok ⟨hallowed, hfresh⟩ hstep
      exact hok.step hallowed hfresh st' hstep
  obtain ⟨-, s, hdemote, hlevel⟩ := hdemotes
  have hcur : st.charge.sched.currentTask = st.sched.currentTask := rfl
  have hsame : (st.charge.sched.task st.sched.currentTask).mlfqLevel =
      (st.sched.task st.sched.currentTask).mlfqLevel := by
    simp only [BurstState.charge, chargeQuota, task_modify, if_pos]
    split <;> rfl
  obtain ⟨-, hfull⟩ := (resets_demote st.charge.sched s hdemote).2
    (by rw [hcur, hsame]; omega)
  exact hfull.trans (hok.charge.le st.sched.currentTask)

instance (st : BurstState) : Decidable st.Demotes :=
  decidable_of_iff (¬ st.Dying ∧ st.charge.sched.demote.any fun s =>
      (s.task st.sched.currentTask).mlfqLevel =
        (st.sched.task st.sched.currentTask).mlfqLevel + 1) <| by
    simp only [BurstState.Demotes, Option.any_eq_true, decide_eq_true_eq]

/-- A user task runs. -/
def burstRun : List QuotaEvent :=
  [.sched (.create { Task.zero with tier := .user }), .sched .schedule]

/-- Events of `burstRun`, and ticks. -/
def QuotaEvent.bursts : QuotaEvent → Bool
  | .sched (.create fields) => fields.mlfqLevel = 0 ∧ fields.mlfqContTicks = 0
  | .sched .schedule | .sched .tick => true
  | _ => false

theorem QuotaEvent.allowed_of_bursts (st : BurstState) {e : QuotaEvent} (h : e.bursts = true) :
    burstSystem.allowed st e := by
  unfold QuotaEvent.bursts at h
  split at h
  · have hnew : _ ∧ _ := of_decide_eq_true h
    exact hnew
  · trivial
  · trivial
  · cases h

/-- Its third tick demotes it. -/
theorem demotion_needs_burst_third : ∃ st, (burstSystem.restrict AgesFresh).Reachable st ∧
    st.Demotes ∧ mlfqDemoteTicks ≤ st.charge.charged st.sched.currentTask := by
  obtain ⟨st, hst, hp⟩ := System.exists_reachable (S := burstSystem.restrict AgesFresh)
    (fun st e => e.bursts ∧ st.charge.sched.tickCount % mlfqAgingTicks ≠ 0)
    (burstRun ++ [.sched .tick, .sched .tick]) BurstState.Demotes
    (fun st e h => ⟨QuotaEvent.allowed_of_bursts st h.1, fun _ _ hage => absurd hage h.2⟩)
    (s := ⟨.taskInit 0, fun _ => 0⟩) (.init ⟨⟨0, rfl⟩, rfl⟩) (by decide +kernel)
  exact ⟨st, hst, hp, demotion_needs_burst hst hp⟩

/-! ## Aging in the middle of a burst -/

/-- **Aging in the middle of a burst**: a user task is created after 295 ticks. Two ticks after its
demotion it is aged, and the next tick demotes it: one tick after its level has changed. -/
theorem demotion_after_aging : ∃ st, burstSystem.Reachable st ∧ st.Demotes ∧
    (st.sched.task st.sched.currentTask).tier = .user ∧
    st.charge.charged st.sched.currentTask = 1 := by
  refine System.exists_reachable (S := burstSystem) (fun _ e => e.bursts)
    (List.replicate 295 (.sched .tick) ++ burstRun ++ List.replicate 5 (.sched .tick)) _
    (fun st _ => QuotaEvent.allowed_of_bursts st) (s := ⟨.taskInit 0, fun _ => 0⟩)
    (.init ⟨⟨0, rfl⟩, rfl⟩) ?_
  decide +kernel

end PokuOS
