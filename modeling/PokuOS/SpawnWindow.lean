import PokuOS.Programs
import PokuOS.Wait

/-!
# Loading a program under preemption

`spawn_user_process` loads the directory of the new task, fills it, and loads the old one again.
The watchdog calls it in the idle loop, with interrupts enabled. A timer tick between the two
loads may switch to a task; when the idle task runs again, `switch_to_task` loads the idle
task's own directory, the kernel's, and not the one `spawn_user_process` had loaded.

The steps of the loader are single events here, interleaved with everything that happens to the
scheduler.
-/

namespace PokuOS

open Option

/-! ## The system -/

/-- Where the idle loop is. -/
inductive SpawnPc where
  /-- not between the two loads of `spawn_user_process` -/
  | outside
  /-- `task_pd` is to be loaded, and `old_cr3` to be loaded again -/
  | window (taskPd oldCr3 : ℕ)
  deriving DecidableEq

/-- The kernel and the idle loop. -/
structure SpawnState where
  /-- scheduler and page tables -/
  kernel : Kernel
  /-- where the idle loop is -/
  pc : SpawnPc

/-- A step of `spawn_user_process`. -/
inductive SpawnStep where
  /-- `paging_create_task_pd` and `load_cr3(task_pd)` -/
  | enter
  /-- `alloc_page_frame` and `map_page`, of `elf_load` or for the stack -/
  | mapPage (vaddr : ℕ)
  /-- `page_present`, `memcpy`, `memset` or `count_user_pages` -/
  | access
  /-- `load_cr3(old_cr3)` -/
  | leave

/-- What a step does. A step out of place does nothing. -/
def SpawnState.spawnStep (st : SpawnState) : SpawnStep → Option SpawnState
  | .enter => do
    let (pd, vm) ← st.kernel.vm.pagingCreateTaskPd
    match pd with
    | none => return { st with kernel := { st.kernel with vm := vm } }
    | some pd =>
      return ⟨({ st.kernel with vm := vm } : Kernel).loadCr3 pd, .window pd st.kernel.vm.cr3⟩
  | .mapPage vaddr =>
    match st.kernel.vm.allocPageFrame with
    | (none, vm) => some { st with kernel := { st.kernel with vm := vm } }
    | (some f, vm) => some { st with kernel := { st.kernel with vm := vm.mapPage vaddr f true } }
  | .access => some st
  | .leave =>
    match st.pc with
    | .outside => some st
    | .window _ oldCr3 => some ⟨st.kernel.loadCr3 oldCr3, .outside⟩

/-- What happens. -/
inductive SpawnEvent where
  /-- a step of `spawn_user_process` in the idle loop -/
  | spawn (step : SpawnStep)
  /-- anything else -/
  | other (e : SchedEvent)

/-- The idle task runs, and is between the two loads. -/
def SpawnState.Loading (st : SpawnState) : Prop :=
  st.pc ≠ .outside ∧ st.kernel.sched.currentTask = .idle

/-- The idle loop calls `spawn_user_process` whenever it runs; between the two loads only the
timer can interrupt it. -/
def spawnSystem : System SpawnState SpawnEvent where
  init st := schedSystem.init st.kernel.sched ∧
    st.kernel.vm.cr3 = st.kernel.sched.pageDirectory ∧ st.pc = .outside
  allowed st
    | .spawn .enter => st.kernel.sched.currentTask = .idle ∧ st.pc = .outside
    | .spawn _ => st.Loading
    | .other e => schedSystem.allowed st.kernel.sched e ∧ (st.Loading → e = .tick)
  step st
    | .spawn step => st.spawnStep step
    | .other e => (schedSystem.step st.kernel.sched e).map fun s =>
      { st with kernel := st.kernel.setSched s }

/-- The event is no tick between the two loads at which `schedule` finds a task to run. -/
def SpawnEvent.FindsNone (st : SpawnState) : SpawnEvent → Prop
  | .other .tick => st.Loading → ∀ s t s', st.kernel.sched.pitHandler = some s →
      s.pickNextTask ≠ some (some t, s')
  | _ => True

namespace Sched

variable {s s' s'' : Sched}

/-! ## The idle task is not marked to die -/

/-- The idle task is not marked to die. -/
def IdleAlive (s : Sched) : Prop := (s.task .idle).killPending = false

theorem ending_killPending : Ending fun a b => b.killPending = a.killPending where
  refl _ := rfl
  trans h h' := h'.trans h
  links _ _ _ := rfl
  ready _ := rfl
  running _ := rfl
  timeslice _ _ := rfl
  level _ _ := rfl
  contTicks _ _ := rfl
  woken _ _ := rfl
  ended _ _ := rfl
  orphan _ := rfl

theorem charging_killPending : Charging fun a b => b.killPending = a.killPending where
  toLeveling := ending_killPending.toLeveling
  quota _ _ _ := rfl

namespace IdleAlive

theorem via (h : IdleAlive s) (hv : Via (fun a b => b.killPending = a.killPending) s s') :
    IdleAlive s' := (hv.task .idle).trans h

theorem modify (h : IdleAlive s) {t : TaskPtr} (ht : .idle ≠ t) (f : Task → Task) :
    IdleAlive (s.modify t f) := by
  unfold IdleAlive
  rw [task_modify, if_neg ht]
  exact h

theorem freeTaskSlot (h : IdleAlive s) (t : TaskPtr) : IdleAlive (s.freeTaskSlot t) := by
  cases t with
  | idle => exact h
  | slot i => exact h.modify (t := .slot i) nofun fun _ => Task.zero

theorem createAndEnqueue (h : IdleAlive s) (fields : Task) :
    IdleAlive (s.createAndEnqueue fields) := by
  rcases s.createAndEnqueue_cases fields with ⟨-, hsame⟩ | ⟨i, s1, -, -, hbody⟩
  · rw [hsame]
    exact h
  · refine IdleAlive.via ?_ (.of_body ending_killPending.toQueueing hbody)
    exact IdleAlive.modify (s := { s with pidCounter := s.pidCounter + 1 }) h (t := .slot i) nofun _

theorem eventful : Eventful (fun a b => b.killPending = a.killPending)
    fun s s' => IdleAlive s → IdleAlive s' where
  allows := charging_killPending
  tier _ _ := rfl
  trans h h' hi := h' (h hi)
  via hv hi := hi.via hv
  count _ _ hi := hi
  kill _ i hi := hi.modify (t := .slot i) nofun _
  dies s t hi := by
    unfold IdleAlive
    rw [task_modify]
    split
    · rfl
    · exact hi
  free _ _ _ hi := hi.freeTaskSlot _
  register s path tier t hi := watchdogRegister_rule (P := IdleAlive) (fun _ _ h => h)
    (fun s t h => h.via (.modify ending_killPending.toQueueing s t rfl)) hi path tier t
  create s fields hi := hi.createAndEnqueue fields
  exit s code := (via_exitCurrent ending_killPending.toClosing s code).mono fun _ hv hi => hi.via hv

theorem step (h : IdleAlive s) {e : SchedEvent} (hallowed : schedSystem.allowed s e) :
    Post (schedSystem.step s e) IdleAlive := by
  refine (eventful.step hallowed (fun _ => ?_) fun _ _ _ s1 h1 => ?_).mono fun _ h' => h' h
  · exact (via_waitCurrent ending_killPending.toQueueing (fun _ => rfl) s).mono
      fun _ hv hi => hi.via hv
  · exact watchdogTick_rule (P := IdleAlive) (fun _ _ _ h => h) (fun _ t _ h => h.freeTaskSlot t) h1

end IdleAlive

/-! ## Without a switch -/

/-- Queues in which nothing is found are left alone. -/
theorem pickFrom_none (qs : List (Fin nrQueues)) : s.pickFrom qs = some (none, s') → s' = s := by
  induction qs with
  | nil =>
    intro h
    exact (Prod.mk.inj (some.inj h)).2.symm
  | cons q qs ih =>
    intro h
    obtain ⟨⟨picked, s1⟩, hpick, hrest⟩ := bind_eq_some_iff.mp h
    cases picked with
    | some t => cases (Prod.mk.inj (some.inj hrest)).1
    | none =>
      have hsame : s1 = s := by
        unfold pickQueue at hpick
        split at hpick
        · exact (Prod.mk.inj (some.inj hpick)).2.symm
        · obtain ⟨⟨_, probe⟩, -, hpick⟩ := bind_eq_some_iff.mp hpick
          cases probe with
          | none => exact (Prod.mk.inj (some.inj hpick)).2.symm
          | some p =>
            obtain ⟨⟨t, s2⟩, -, hpick⟩ := bind_eq_some_iff.mp hpick
            simp only at hpick
            split at hpick
            · obtain ⟨s3, -, hpick⟩ := bind_eq_some_iff.mp hpick
              cases hpick
            · cases hpick
      rw [hsame] at hrest
      exact ih hrest

/-- The idle task goes on when there is nothing to run. -/
theorem schedule_idle (hidle : s.currentTask = .idle)
    (hnone : ∀ t s', s.pickNextTask ≠ some (some t, s')) : Post s.schedule fun s' => s' = s := by
  unfold schedule
  simp only
  rw [if_pos hidle]
  intro s' hs'
  obtain ⟨⟨cand, s1⟩, hpick, hs'⟩ := bind_eq_some_iff.mp hs'
  cases cand with
  | none =>
    cases hs'
    exact pickFrom_none _ hpick
  | some t => exact absurd hpick (hnone t s1)

end Sched

/-! ## The invariant -/

/-- Between the two loads the idle task runs and the new directory is loaded. -/
structure Steady (st : SpawnState) : Prop where
  /-- the idle task is not marked to die -/
  alive : st.kernel.sched.IdleAlive
  /-- scheduler and page tables agree on the loaded directory -/
  sync : st.kernel.vm.cr3 = st.kernel.sched.cr3
  /-- it is the new one between the two loads -/
  window : ∀ pd old, st.pc = .window pd old →
    st.kernel.sched.currentTask = .idle ∧ st.kernel.sched.cr3 = pd

namespace Steady

open Sched

variable {st : SpawnState}

theorem init (h : spawnSystem.init st) : Steady st := by
  obtain ⟨⟨pageDirectory, hsched⟩, hcr3, hpc⟩ := h
  refine ⟨?_, ?_, fun pd old hwindow => nomatch hpc.symm.trans hwindow⟩
  · rw [hsched]
    rfl
  · rw [hcr3, hsched]
    rfl

theorem spawn (h : Steady st) {step : SpawnStep} (hallowed : spawnSystem.allowed st (.spawn step)) :
    Post (st.spawnStep step) Steady := by
  cases step with
  | enter =>
    refine st.kernel.vm.cr3_pagingCreateTaskPd.bind ?_
    rintro ⟨pd, vm⟩ hvm
    cases pd with
    | none => exact .some ⟨h.alive, hvm.trans h.sync, h.window⟩
    | some pd =>
      refine .some ⟨h.alive, rfl, fun pd' old hpc => ?_⟩
      obtain ⟨rfl, -⟩ := SpawnPc.window.inj hpc
      exact ⟨hallowed.1, rfl⟩
  | mapPage vaddr =>
    have hcr3 := st.kernel.vm.cr3_allocPageFrame
    unfold SpawnState.spawnStep
    rcases halloc : st.kernel.vm.allocPageFrame with ⟨f, vm⟩
    rw [halloc] at hcr3
    cases f with
    | none => exact .some ⟨h.alive, hcr3.trans h.sync, h.window⟩
    | some f =>
      exact .some ⟨h.alive, ((vm.cr3_mapPage _ _ _).trans hcr3).trans h.sync, h.window⟩
  | access => exact .some h
  | leave =>
    unfold SpawnState.spawnStep
    cases hpc : st.pc with
    | outside => exact .some h
    | window pd old => exact .some ⟨h.alive, rfl, nofun⟩

theorem other (h : Steady st) {e : SchedEvent}
    (hallowed : spawnSystem.allowed st (.other e)) (hnone : (SpawnEvent.other e).FindsNone st) :
    Post (spawnSystem.step st (.other e)) Steady := by
  refine Post.map (P := fun s => s.IdleAlive ∧ ∀ pd old, st.pc = .window pd old →
    s.currentTask = .idle ∧ s.cr3 = pd) (fun s hs => ⟨h.alive.step hallowed.1 s hs,
      fun pd old hpc => ?_⟩)
    fun s hs => ⟨hs.1, rfl, hs.2⟩
  -- between the two loads the event is a tick, at which there is nothing to run
  obtain ⟨hidle, hcr3⟩ := h.window pd old hpc
  have hloading : st.Loading := ⟨by rw [hpc]; nofun, hidle⟩
  obtain rfl := hallowed.2 hloading
  obtain ⟨s1, h1, hs⟩ := bind_eq_some_iff.mp hs
  have hkill : (st.kernel.sched.task st.kernel.sched.currentTask).killPending = false := by
    rw [hidle]
    exact h.alive
  have hstays := frame_pitHandler ticking_stays st.kernel.sched
    (fun hdies => nomatch hkill.symm.trans hdies) (fun _ _ => stays_watchdogTick) s1 h1
  obtain rfl := schedule_idle (hstays.currentTask.trans hidle)
    (fun t s' => hnone hloading s1 t s' h1) s hs
  exact ⟨hstays.currentTask.trans hidle, hstays.cr3.trans hcr3⟩

end Steady

/-- The runs in which no tick between the two loads finds a task to run. -/
abbrev steadySystem : System SpawnState SpawnEvent :=
  spawnSystem.restrict fun st e => e.FindsNone st

/-- **What is loaded stays loaded.** In every run in which no tick between the two loads finds a
task to run, the idle task runs and `task_pd` is loaded from the first load to the second, so
that every step in between works on it. -/
theorem spawn_stays_loaded {st : SpawnState} (h : steadySystem.Reachable st) {pd old : ℕ}
    (hpc : st.pc = .window pd old) :
    st.kernel.sched.currentTask = .idle ∧ st.kernel.sched.cr3 = pd ∧ st.kernel.vm.cr3 = pd := by
  have hinv : Steady st := by
    refine System.Reachable.invariant (S := steadySystem) (I := Steady)
      (fun _ hinit => .init hinit) ?_ h
    rintro st e st' hst ⟨hallowed, hnone⟩ hstep
    cases e with
    | spawn step => exact hst.spawn hallowed st' hstep
    | other e => exact hst.other hallowed hnone st' hstep
  obtain ⟨hidle, hcr3⟩ := hinv.window pd old hpc
  exact ⟨hidle, hcr3, hinv.sync.trans hcr3⟩

/-! ## Two runs -/

instance (st : SpawnState) : Decidable st.Loading := inferInstanceAs (Decidable (_ ∧ _))

/-- A test for being allowed, for the events of the runs below. -/
def SpawnEvent.passes (st : SpawnState) : SpawnEvent → Bool
  | .spawn .enter => decide (st.kernel.sched.currentTask = .idle ∧ st.pc = .outside)
  | .spawn _ => decide st.Loading
  | .other .tick => true
  | .other .wait => decide (st.kernel.sched.currentTask ≠ .idle)
  | .other (.create _) => decide (¬ st.Loading)
  | .other _ => false

theorem SpawnEvent.allowed_of_passes (st : SpawnState) (e : SpawnEvent) (h : e.passes st = true) :
    spawnSystem.allowed st e := by
  cases e with
  | spawn step =>
    cases step with
    | enter =>
      exact of_decide_eq_true (p := st.kernel.sched.currentTask = .idle ∧ st.pc = .outside) h
    | mapPage | access | leave => exact of_decide_eq_true (p := st.Loading) h
  | other e =>
    cases e with
    | tick => exact ⟨trivial, fun _ => rfl⟩
    | wait =>
      have hcur := of_decide_eq_true (p := st.kernel.sched.currentTask ≠ .idle) h
      exact ⟨hcur, fun hloading => absurd hloading.2 hcur⟩
    | create fields =>
      exact ⟨trivial, fun hloading => absurd hloading (of_decide_eq_true (p := ¬ st.Loading) h)⟩
    | yield | exit | setTier | setLevel | schedule | kill | register | reap => cases h

/-- A test for finding no task to run. -/
def SpawnEvent.quiet (st : SpawnState) : SpawnEvent → Bool
  | .other .tick => (st.kernel.sched.pitHandler.bind Sched.pickNextTask).all fun r => r.1.isNone
  | _ => true

theorem SpawnEvent.findsNone_of_quiet (st : SpawnState) (e : SpawnEvent) (h : e.quiet st = true) :
    e.FindsNone st := by
  cases e with
  | spawn step => exact trivial
  | other e =>
    cases e with
    | tick =>
      intro _ s t s' hs hpick
      have hbind : st.kernel.sched.pitHandler.bind Sched.pickNextTask = some (some t, s') := by
        rw [hs]
        exact hpick
      unfold quiet at h
      rw [hbind] at h
      cases h
    | create | wait | yield | exit | setTier | setLevel | schedule | kill | register | reap =>
      exact trivial

/-- The machine after `paging_init` and `task_init`. -/
def spawnInit : SpawnState :=
  ⟨⟨.taskInit 300, pagingInit ⟨300, 301, fun j => 302 + j.val⟩⟩, .outside⟩

theorem init_spawnInit : spawnSystem.init spawnInit := ⟨⟨300, rfl⟩, rfl, rfl⟩

/-- A program is loaded; a tick comes when there is no other task. -/
def loadAlone : List SpawnEvent := [.spawn .enter, .other .tick, .spawn (.mapPage 0x01000000)]

/-- The page is mapped in the new directory. -/
theorem spawn_stays_loaded_alone :
    ∃ st, steadySystem.Reachable st ∧ st.pc = .window 1024 300 ∧ st.kernel.vm.cr3 = 1024 ∧
      st.kernel.vm.pagePresent 0x01000000 = true := by
  obtain ⟨st, hreach, hpc, hpage⟩ := System.exists_reachable (S := steadySystem)
    (fun st e => e.passes st ∧ e.quiet st) loadAlone
    (fun st => st.pc = .window 1024 300 ∧ st.kernel.vm.pagePresent 0x01000000)
    (fun st e h => ⟨e.allowed_of_passes st h.1, e.findsNone_of_quiet st h.2⟩)
    (.init init_spawnInit) (by decide +kernel)
  exact ⟨st, hreach, hpc, (spawn_stays_loaded hreach hpc).2.2, hpage⟩

/-- A program is loaded while a task is ready; at a tick the task runs, and then it blocks. -/
def loadPreempted : List SpawnEvent :=
  [.other (.create { userTask none with cr3 := 300 }), .spawn .enter, .other .tick, .other .wait]

/-- **After a switch away and back the kernel's directory is loaded**: what `elf_load` maps next
goes there. -/
theorem spawn_loses_directory :
    ∃ st, spawnSystem.Reachable st ∧ st.pc = .window 1024 300 ∧ st.Loading ∧
      st.kernel.vm.cr3 = 300 := by
  refine System.exists_reachable (S := spawnSystem) (fun st e => e.passes st) loadPreempted _
    SpawnEvent.allowed_of_passes (.init init_spawnInit) ?_
  decide +kernel

end PokuOS
