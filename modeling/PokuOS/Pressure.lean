import PokuOS.Sched

/-!
# Memory pressure

`vm_handle_pressure` raises the running user task to `TIER_CRITICAL` when hardly any page is free,
and `vm_release_pressure` is to lower it again. That a promotion is to be undone is recorded in one
flag, `pressure_triggered`, for all tasks together: the first release clears it, and a second
promoted task is not released any more.
-/

namespace PokuOS

/-- `FREE_PAGES_CRITICAL`. -/
def freePagesCritical : ℕ := 64

/-- `FREE_PAGES_WARN`. -/
def freePagesWarn : ℕ := 128

/-- The scheduler's tasks and the state of `vm/vm.c`. -/
structure PressureState where
  /-- the tasks -/
  sched : Sched
  pressureTriggered : Bool
  /-- the tasks that `vm_handle_pressure` has promoted at some time -/
  promoted : TaskPtr → Bool

namespace PressureState

/-- The tier of the running task. -/
def currentTier (st : PressureState) : Tier := (st.sched.task st.sched.currentTask).tier

/-- `current->tier = tier`. -/
def setCurrentTier (st : PressureState) (tier : Tier) : PressureState :=
  { st with sched := st.sched.modify st.sched.currentTask fun task => { task with tier := tier } }

/-- `vm_handle_pressure`, with this many free pages. -/
def vmHandlePressure (st : PressureState) (free : ℕ) : PressureState :=
  if free < freePagesCritical ∧ st.currentTier = .user then
    { st.setCurrentTier .critical with
      pressureTriggered := true
      promoted := Function.update st.promoted st.sched.currentTask true }
  else st

/-- `vm_release_pressure`, with this many free pages. -/
def vmReleasePressure (st : PressureState) (free : ℕ) : PressureState :=
  if st.pressureTriggered ∧ st.currentTier = .critical ∧ freePagesWarn ≤ free then
    { st.setCurrentTier .user with pressureTriggered := false }
  else st

theorem tier_setCurrentTier (st : PressureState) (tier : Tier) (t : TaskPtr) :
    ((st.setCurrentTier tier).sched.task t).tier =
      if t = st.sched.currentTask then tier else (st.sched.task t).tier := by
  rw [setCurrentTier, Sched.task_modify]
  split <;> rfl

end PressureState

/-- What happens under memory pressure. -/
inductive PressureEvent where
  /-- another task runs -/
  | switch (t : TaskPtr)
  /-- the running task calls `vm_handle_pressure` -/
  | handle (free : ℕ)
  /-- the running task calls `vm_release_pressure` -/
  | release (free : ℕ)

/-- The tasks `T`, user tasks at first, run in any order and meet any number of free pages. -/
def pressureSystem (T : Set TaskPtr) : System PressureState PressureEvent where
  init st := st.sched.currentTask ∈ T ∧ (∀ t ∈ T, (st.sched.task t).tier = .user) ∧
    st.pressureTriggered = false ∧ st.promoted = fun _ => false
  allowed _
    | .switch t => t ∈ T
    | _ => True
  step st
    | .switch t => some { st with sched := { st.sched with currentTask := t } }
    | .handle free => some (st.vmHandlePressure free)
    | .release free => some (st.vmReleasePressure free)

namespace PressureState

variable {T : Set TaskPtr} {st : PressureState}

/-- A promoted task is critical, or a user task again. -/
def Ok (st : PressureState) : Prop :=
  ∀ t, st.promoted t = true → (st.sched.task t).tier = .critical ∨ (st.sched.task t).tier = .user

theorem Ok.step (h : st.Ok) {e : PressureEvent} :
    Post ((pressureSystem T).step st e) Ok := by
  cases e with
  | switch t => exact .some h
  | handle free =>
    refine .some fun t ht => ?_
    unfold vmHandlePressure at ht ⊢
    split at ht
    · rename_i hcond
      rw [if_pos hcond]
      change ((st.setCurrentTier .critical).sched.task t).tier = _ ∨
        ((st.setCurrentTier .critical).sched.task t).tier = _
      rw [tier_setCurrentTier]
      split
      · exact .inl rfl
      · rename_i hne
        have ht' : Function.update st.promoted st.sched.currentTask true t = true := ht
        rw [Function.update_of_ne hne] at ht'
        exact h t ht'
    · rename_i hcond
      rw [if_neg hcond]
      exact h t ht
  | release free =>
    refine .some fun t ht => ?_
    unfold vmReleasePressure at ht ⊢
    split at ht
    · rename_i hcond
      rw [if_pos hcond]
      change ((st.setCurrentTier .user).sched.task t).tier = _ ∨
        ((st.setCurrentTier .user).sched.task t).tier = _
      rw [tier_setCurrentTier]
      split
      · exact .inr rfl
      · exact h t ht
    · rename_i hcond
      rw [if_neg hcond]
      exact h t ht

end PressureState

/-- **Promotion to `TIER_CRITICAL` is undone iff the flag is still set.** In every run, when a task
that was promoted calls `vm_release_pressure` with enough free pages, it is a user task afterwards
iff it is one already or no release has cleared `pressure_triggered` since the last promotion. -/
theorem promotion_undone_iff {T : Set TaskPtr} {st : PressureState}
    (h : (pressureSystem T).Reachable st) (hpromoted : st.promoted st.sched.currentTask = true)
    {free : ℕ} (hfree : freePagesWarn ≤ free) :
    (st.vmReleasePressure free).currentTier = .user ↔
      st.pressureTriggered = true ∨ st.currentTier = .user := by
  have hok : st.Ok := by
    refine h.invariant ?_ fun st e st' hok _ hstep => hok.step st' hstep
    rintro st ⟨-, -, -, hnone⟩ t ht
    rw [hnone] at ht
    cases ht
  have htier : st.currentTier = .critical ∨ st.currentTier = .user := hok _ hpromoted
  unfold PressureState.vmReleasePressure
  split
  · rename_i hcond
    refine iff_of_true ?_ (.inl hcond.1)
    exact (st.tier_setCurrentTier .user st.sched.currentTask).trans (if_pos rfl)
  · rename_i hcond
    constructor
    · exact .inr
    · rintro (hflag | huser)
      · exact htier.resolve_left fun hcrit => hcond ⟨hflag, hcrit, hfree⟩
      · exact huser

/-- Two user tasks. -/
def twoUsers : PressureState where
  sched := { ((Sched.taskInit 0).createAndEnqueue { Task.zero with tier := .user }).createAndEnqueue
      { Task.zero with tier := .user } with currentTask := .slot 0 }
  pressureTriggered := false
  promoted _ := false

theorem reachable_twoUsers : (pressureSystem {.slot 0, .slot 1}).Reachable twoUsers := by
  refine .init ⟨.inl rfl, ?_, rfl, rfl⟩
  rintro t (rfl | rfl) <;> rfl

/-- Events of the two tasks. -/
def twoUsersEvent : PressureEvent → Bool
  | .switch t => t = .slot 0 ∨ t = .slot 1
  | _ => true

theorem allowed_of_twoUsersEvent {st : PressureState} {e : PressureEvent}
    (h : twoUsersEvent e = true) : (pressureSystem {.slot 0, .slot 1}).allowed st e := by
  cases e with
  | switch t =>
    have ht : t = .slot 0 ∨ t = .slot 1 := of_decide_eq_true h
    exact ht
  | handle free => trivial
  | release free => trivial

/-- One task is promoted and released. -/
theorem promotion_undone_one : ∃ st, (pressureSystem {.slot 0, .slot 1}).Reachable st ∧
    st.currentTier = .critical ∧ (st.vmReleasePressure 200).currentTier = .user := by
  obtain ⟨st, hst, hpromoted, hflag, hcrit⟩ := System.exists_reachable
    (S := pressureSystem {.slot 0, .slot 1}) (fun _ e => twoUsersEvent e) [.handle 10]
    (fun st => st.promoted st.sched.currentTask ∧ st.pressureTriggered ∧
      st.currentTier = .critical) (fun _ _ => allowed_of_twoUsersEvent) reachable_twoUsers
    (by decide +kernel)
  exact ⟨st, hst, hcrit, (promotion_undone_iff hst hpromoted (by decide)).mpr (.inl hflag)⟩

/-- **The second of two promoted tasks stays critical**, in the queue of the system tasks. -/
theorem promotion_stays : ∃ st, (pressureSystem {.slot 0, .slot 1}).Reachable st ∧
    st.promoted st.sched.currentTask = true ∧
    (st.vmReleasePressure 200).currentTier = .critical ∧
    taskQidx ((st.vmReleasePressure 200).sched.task st.sched.currentTask) = 1 := by
  refine System.exists_reachable
    (fun _ e => twoUsersEvent e)
    [.handle 10, .switch (.slot 1), .handle 10, .switch (.slot 0), .release 200,
      .switch (.slot 1)] _
    (fun _ _ => allowed_of_twoUsersEvent) reachable_twoUsers ?_
  decide +kernel

end PokuOS
