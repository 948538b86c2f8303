import PokuOS.SandboxRun
import PokuOS.TaskInv
import PokuOS.Watchdog

/-!
# What ending tasks may break

The kernel with the work of its idle loop, `watchdog_check` and `task_reap_orphans`. Most of what
holds of the process table is safe from scheduling, accounting, tiers and new tasks, and from the
slots of ended tasks being freed. What is left is `task_exit`. A property that is `Enduring` holds
along every run in which each task that ends keeps it.

* `KernelEvent.Ends` — the event ends the running task.
* `Enduring.step` — **an event keeps an enduring property** if it ends no task, or if the task
  ending keeps it.
* `Kernel.going_step` — nobody but the task that ends is gone after an event, and
  `Kernel.alive_step` — the running task has not ended.
-/

namespace PokuOS

/-! ## Tasks that go on -/

/-- The same task with the same owner, which has not ended. -/
structure Held (a b : Task) : Prop where
  pid : b.pid = a.pid
  inUse : b.inUse = a.inUse
  parent : b.parent = a.parent
  /-- `wd_managed` is not taken back -/
  managed : a.wdManaged = true → b.wdManaged = true
  /-- it has not ended -/
  exited : b.state = .exited → a.state = .exited

theorem lenient_held : Lenient Held where
  refl _ := ⟨rfl, rfl, rfl, fun h => h, fun h => h⟩
  trans h h' := ⟨h'.pid.trans h.pid, h'.inUse.trans h.inUse, h'.parent.trans h.parent,
    fun hm => h'.managed (h.managed hm), fun he => h.exited (h'.exited he)⟩
  links _ _ _ := ⟨rfl, rfl, rfl, fun h => h, fun h => h⟩
  ready _ := ⟨rfl, rfl, rfl, fun h => h, nofun⟩
  running _ := ⟨rfl, rfl, rfl, fun h => h, nofun⟩
  timeslice _ _ := ⟨rfl, rfl, rfl, fun h => h, fun h => h⟩
  level _ _ := ⟨rfl, rfl, rfl, fun h => h, fun h => h⟩
  contTicks _ _ := ⟨rfl, rfl, rfl, fun h => h, fun h => h⟩
  quota _ _ _ := ⟨rfl, rfl, rfl, fun h => h, fun h => h⟩
  waiting _ := ⟨rfl, rfl, rfl, fun h => h, nofun⟩
  kill _ _ := ⟨rfl, rfl, rfl, fun h => h, fun h => h⟩
  critical a := by
    unfold Kernel.makeCritical
    split <;> exact ⟨rfl, rfl, rfl, fun h => h, fun h => h⟩
  managed _ := ⟨rfl, rfl, rfl, fun _ => rfl, fun h => h⟩
  tier _ _ := ⟨rfl, rfl, rfl, fun h => h, fun h => h⟩
  override _ _ := ⟨rfl, rfl, rfl, fun h => h, fun h => h⟩
  program _ _ _ _ _ := ⟨rfl, rfl, rfl, fun h => h, fun h => h⟩

theorem charging_held : Charging Held := lenient_held.toCharging

namespace Sched

variable {s s' : Sched}

/-! ## The running task -/

/-- The running task has not ended. -/
def Alive (s : Sched) : Prop := s.currentTask = .idle ∨ (s.task s.currentTask).state ≠ .exited

theorem alive_switchToTask (s : Sched) (next : TaskPtr) : Alive (s.switchToTask next) := by
  refine .inr ?_
  have hrun : ((s.switchToTask next).task next).state = .running := by
    unfold switchToTask setTaskTimeslice setState
    simp only [task_modify, if_true]
  change ((s.switchToTask next).task next).state ≠ .exited
  rw [hrun]
  exact nofun

/-- **`schedule` does not return to a task that has ended.** -/
theorem alive_schedule (s : Sched) : Post s.schedule Alive := by
  intro s' hs'
  cases scheduled_schedule s s' hs' with
  | idle hidle hbody => exact .inl ((currentTask_eq hbody).trans hidle)
  | @switch s1 cand _ _ => exact alive_switchToTask s1 cand
  | @renew s1 hbody _ =>
    have hcur : s1.currentTask = s.currentTask := (congrArg Sched.currentTask hbody :)
    have hready : (s1.task s.currentTask).state = .ready := by
      rw [state_eq hbody, setState, task_modify, if_pos rfl]
    refine .inr ?_
    change ((s1.setTaskTimeslice s.currentTask).task s1.currentTask).state ≠ .exited
    rw [hcur, setTaskTimeslice, task_modify, if_pos rfl]
    intro hexited
    cases hready.symm.trans hexited
  | goOn hbody halive _ =>
    have hcur : s'.currentTask = s.currentTask := (congrArg Sched.currentTask hbody :)
    refine .inr ?_
    rw [hcur, state_eq hbody, spent, task_modify, if_pos rfl]
    split <;> exact halive

/-- The body of the loop of `task_reap_orphans`. -/
def reapOrphan (s : Sched) (i : Fin maxTasks) : Sched :=
  let task := s.task (.slot i)
  if task.inUse ∧ task.state = .exited ∧ task.parent = none ∧ ¬ task.wdManaged then
    s.freeTaskSlot (.slot i)
  else s

/-- `task_reap_orphans`. -/
def taskReapOrphans (s : Sched) : Sched := (List.finRange maxTasks).foldl reapOrphan s

end Sched

/-! ## The idle loop -/

namespace Kernel

open Sched

/-- The body of the loop of `watchdog_check`; `reads i` is what reading the program of entry `i`
gives, and whether there is memory for its map. -/
def checkEntry (L : Layout) (reads : ℕ → FileRead × Bool) (k : Kernel) (i : ℕ) : Option Kernel :=
  match k.sched.wdTable[i]? with
  | none => some k
  | some e =>
    if !e.active || !e.spawnDue then some k
    else do
      let k : Kernel := { k with
        sched := CheckState.modifyEntry k.sched i fun e => { e with spawnDue := false } }
      let (t, k) ← k.spawnUserProcess L e.path (reads i).1 (reads i).2
      return { k with sched := CheckState.store k.sched i t }

/-- `watchdog_check`, not interrupted. -/
def watchdogCheck (L : Layout) (k : Kernel) (reads : ℕ → FileRead × Bool) : Option Kernel :=
  (List.range k.sched.wdTable.length).foldlM (checkEntry L reads) k

end Kernel

/-- What happens to the kernel, with the work of the idle loop. -/
inductive TableEvent where
  /-- an event of the kernel -/
  | kernel (e : KernelEvent)
  /-- `watchdog_check` -/
  | check (reads : ℕ → FileRead × Bool)
  /-- `task_reap_orphans` -/
  | reap

/-- The kernel from boot on. -/
def tableSystem (L : Layout) : System Kernel TableEvent where
  init := (kernelSystem L).init
  allowed k
    | .kernel e => (kernelSystem L).allowed k e
    | _ => True
  step k
    | .kernel e => e.apply L k
    | .check reads => k.watchdogCheck L reads
    | .reap => some { k with sched := k.sched.taskReapOrphans }

theorem run_tableSystem (L : Layout) (es : List KernelEvent) (k : Kernel) :
    (tableSystem L).run k (es.map .kernel) = (kernelSystem L).run k es := by
  induction es generalizing k with
  | nil => rfl
  | cons e es ih =>
    simp only [List.map_cons, System.run]
    exact bind_congr ih

/-- `sys_exit` is `task_exit` and `schedule` as far as the scheduler goes. -/
theorem Kernel.sched_taskExit (k : Kernel) (code : ℤ) :
    (k.taskExit code).map Kernel.sched = (k.sched.exitCurrent code).bind Sched.schedule := by
  unfold Kernel.taskExit Kernel.schedule
  cases k.sched.exitCurrent code with
  | none => rfl
  | some s => cases hs : s.schedule <;> simp [hs, Kernel.setSched]

/-- The event ends the running task. -/
def TableEvent.Ends (k : Kernel) : TableEvent → Prop
  | .kernel e => e.Ends k
  | _ => False

/-- The event calls `task_exit`. -/
def KernelEvent.ends (k : Kernel) : KernelEvent → Bool
  | .syscall (.exit _) => permitted (k.sched.task k.sched.currentTask).caps .exit
  | .tick => (k.sched.task k.sched.currentTask).killPending
  | .fault vaddr present write =>
    !((k.sched.task k.sched.currentTask).map && present && write &&
      (k.vm.vmFaultCow vaddr).any fun r => r.1 == 0)
  | _ => false

theorem KernelEvent.ends_iff {k : Kernel} {e : KernelEvent} : e.ends k = true ↔ e.Ends k := by
  cases e with
  | syscall call => cases call <;> simp [ends, Ends]
  | fault vaddr present write =>
    have hcow : (k.vm.vmFaultCow vaddr).any (fun r => r.1 == 0) = true ↔
        ∃ vm, k.vm.vmFaultCow vaddr = some (0, vm) := by
      simp [Option.any_eq_true]
    simp only [ends, Ends, Bool.not_eq_true', ← Bool.not_eq_true, Bool.and_eq_true, hcow, and_assoc]
  | _ => simp [ends, Ends]

/-- The event calls `task_exit`. -/
def TableEvent.ends (k : Kernel) : TableEvent → Bool
  | .kernel e => e.ends k
  | _ => false

theorem TableEvent.ends_iff {k : Kernel} {e : TableEvent} : e.ends k = true ↔ e.Ends k := by
  cases e with
  | kernel e => exact KernelEvent.ends_iff
  | _ => simp [ends, Ends]

/-- The images that the event loads are in order. -/
def TableEvent.ImagesOk : TableEvent → Prop
  | .kernel e => e.ImagesOk
  | .check reads => ∀ i mem data, (reads i).1 = .image mem data → ImageOk mem data
  | .reap => True

/-! ## Enduring properties -/

/-- `I` is about what `R` leaves alone, and not about the watchdog's table; and it survives new
tasks, and the freeing of tasks that have ended. When `schedule` is called, `E` is left of it, and
`O` when it returns. -/
structure Enduring (R : Task → Task → Prop) (E I O : Sched → Prop) : Prop where
  /-- single writes -/
  allows : Lenient R
  /-- what it is about -/
  held : ∀ {s s' : Sched}, (∀ t, R (s.task t) (s'.task t)) → s'.currentTask = s.currentTask →
    s'.pidCounter = s.pidCounter → I s → I s'
  /-- calls of `schedule` -/
  enter : ∀ {s}, I s → E s
  /-- calls that do not call `schedule` -/
  leave : ∀ {s}, I s → O s
  schedule : ∀ s, E s → Post s.schedule O
  /-- a task that has ended is freed -/
  free : ∀ {s : Sched} {i : Fin maxTasks}, (s.task (.slot i)).state = .exited → I s →
    I (s.freeTaskSlot (.slot i))
  /-- a slot is filled, or given back -/
  create : ∀ {s s₁ : Sched} {i : Fin maxTasks} {task : Task},
    s.createTaskSlot = (some i, s₁) → task.state ≠ .exited →
    (task.pid = (s₁.task (.slot i)).pid ∧ task.inUse = (s₁.task (.slot i)).inUse ∨
      task = Task.zero) → I s → I (s₁.modify (.slot i) fun _ => task)

namespace Enduring

open Sched Kernel

variable {R : Task → Task → Prop} {E I O : Sched → Prop} (hI : Enduring R E I O) {s : Sched}
include hI

theorem same {s' : Sched} (h : I s) (htask : s'.task = s.task)
    (hcur : s'.currentTask = s.currentTask) (hpid : s'.pidCounter = s.pidCounter) : I s' :=
  hI.held (fun _ => htask ▸ hI.allows.refl _) hcur hpid h

theorem freeEnded {t : TaskPtr} (hended : (s.task t).state = .exited) (h : I s) :
    I (s.freeTaskSlot t) := by
  cases t with
  | idle => exact h
  | slot i => exact hI.free hended h

/-- **An enduring property is lasting.** -/
theorem lasting : Lasting R E I O where
  allows := hI.allows.toHandling
  held hs h := hI.held hs.task hs.currentTask hs.pidCounter h
  enter := hI.enter
  leave := hI.leave
  schedule := hI.schedule
  watchdogTick _ h := watchdogTick_rule (fun _ _ _ h => hI.same h rfl rfl rfl)
    (fun _ _ hended h => hI.freeEnded hended h) h
  reapChild _ _ hended h := hI.free hended.exited h
  giveUp s s1 i f hslot h := by
    rw [freeTaskSlot_modify]
    exact hI.create hslot nofun (.inr rfl) h

theorem creates {k : Kernel} {e : KernelEvent} {s1 : Sched} {i : Fin maxTasks} {task : Task}
    (h : I s) (hnew : k.Creates e s s1 i task) : I (s1.modify (.slot i) fun _ => task) :=
  hI.create hnew.slot (by rw [hnew.state]; nofun) (.inl ⟨hnew.pid, hnew.inUse⟩) h

theorem manage (h : I s) (t : TaskPtr) :
    I (s.modify t fun task => { task with wdManaged := true }) :=
  hI.lasting.modify h t (hI.allows.managed _)

theorem watchdogRegister (h : I s) (path : CStr) (tier : Tier) (t : Option TaskPtr) :
    I (s.watchdogRegister path tier t).2 :=
  watchdogRegister_rule (fun _ _ h => hI.same h rfl rfl rfl) (fun _ t h => hI.manage h t) h path
    tier t

theorem taskReapOrphans (h : I s) : I s.taskReapOrphans := by
  unfold Sched.taskReapOrphans
  generalize List.finRange maxTasks = slots
  induction slots generalizing s with
  | nil => exact h
  | cons i slots ih =>
    refine ih ?_
    unfold reapOrphan
    simp only
    split
    · rename_i hreap
      exact hI.free hreap.2.1 h
    · exact h

variable {L : Layout} {k : Kernel}

theorem checkEntry (h : I k.sched) {reads : ℕ → FileRead × Bool} (i : ℕ)
    (hfile : ∀ mem data, (reads i).1 = .image mem data → ImageOk mem data) :
    Post (k.checkEntry L reads i) fun k' => I k'.sched := by
  unfold Kernel.checkEntry
  split
  · exact .some h
  split
  · exact .some h
  have hcleared : I (CheckState.modifyEntry k.sched i fun e => { e with spawnDue := false }) :=
    hI.same h rfl rfl rfl
  refine (hI.lasting.spawn (k := { k with sched := _ }) hcleared hfile hI.creates).bind ?_
  rintro ⟨t, k1⟩ h1
  cases t with
  | none => exact .some (hI.same h1 rfl rfl rfl)
  | some t => exact .some (hI.same (hI.manage h1 (.slot t)) rfl rfl rfl)

/-- **An event keeps an enduring property**, if its images are in order and the task it ends, if
any, keeps the property when it ends. -/
theorem step (hfits : k.sched.Fits) (h : I k.sched) {e : TableEvent}
    (hallowed : (tableSystem L).allowed k e) (himg : e.ImagesOk)
    (hexit : e.Ends k → k.EndsWell E I) : Post ((tableSystem L).step k e) fun k' => O k'.sched := by
  cases e with
  | kernel e =>
    exact hI.lasting.apply hI.allows hfits h hallowed himg hexit hI.creates fun path tier i _ =>
      hI.watchdogRegister h path tier _
  | check reads =>
    have hall : Post (k.watchdogCheck L reads) fun k' => I k'.sched :=
      Post.foldlM (fun k1 i h1 => hI.checkEntry h1 i (himg i)) _ h
    exact hall.mono fun _ => hI.leave
  | reap => exact .some (hI.leave (hI.taskReapOrphans h))

end Enduring

/-! ## The process table fits -/

namespace Sched

variable {s s' : Sched}

theorem enduring_fits : Enduring (fun a b => b.limits = a.limits) Fits Fits Fits where
  allows := lenient_limits
  held hs _ hpid h := h.evolves (P := NoneNew) ⟨⟨0, fun t => .inl (hs t)⟩, hpid.ge⟩
  enter h := h
  leave h := h
  schedule s h := (keeps_schedule s).mono fun _ hs => h.evolves (P := NoneNew) hs.evolves
  free {s i} _ h := h.evolves (P := NoneNew) (keeps_freeTaskSlot s (.slot i)).evolves
  create {s s1 i task} hslot _ htask h := by
    have hnew := newSlot_of_createTaskSlot hslot
    rcases htask with ⟨hpid, huse⟩ | rfl
    · exact h.evolves (P := fun _ => True) (.create hnew hpid huse trivial)
    · have hfree := h.evolves (P := NoneNew) (.create_free hnew id)
      rwa [freeTaskSlot_modify] at hfree

/-! ## Who goes on -/

/-- Who was there and had not ended is there and has not ended, but for `dead`. -/
def Going (dead : Option TaskPtr) (s₀ s : Sched) : Prop :=
  ∀ t, dead ≠ some t → (s₀.task t).inUse = true → (s₀.task t).state ≠ .exited →
    (s.task t).inUse = true ∧ (s.task t).pid = (s₀.task t).pid ∧ (s.task t).state ≠ .exited

theorem enduring_going (dead : Option TaskPtr) (s0 : Sched) :
    Enduring Held (Going dead s0) (Going dead s0) (Going dead s0) where
  allows := lenient_held
  held hs _ _ h t ht huse hstate := by
    obtain ⟨huse', hpid, hstate'⟩ := h t ht huse hstate
    exact ⟨(hs t).inUse.trans huse', (hs t).pid.trans hpid, fun he => hstate' ((hs t).exited he)⟩
  enter h := h
  leave h := h
  schedule s h := (via_schedule charging_held.toScheduling s).mono fun _ hs t ht huse hstate => by
    obtain ⟨huse', hpid, hstate'⟩ := h t ht huse hstate
    have ht := hs.task t
    exact ⟨ht.inUse.trans huse', ht.pid.trans hpid, fun he => hstate' (ht.exited he)⟩
  free {s i} hended h t ht huse hstate := by
    have hgoing := h t ht huse hstate
    rw [task_freeTaskSlot, if_neg]
    · exact hgoing
    · rintro rfl
      exact hgoing.2.2 hended
  create {s s1 i task} hslot _ _ h t ht huse hstate := by
    have hnew := newSlot_of_createTaskSlot hslot
    have hgoing := h t ht huse hstate
    have hti : t ≠ .slot i := by
      rintro rfl
      cases hnew.free.symm.trans hgoing.1
    rw [task_modify, if_neg hti, hnew.others t hti]
    exact hgoing

theorem Going.exitCurrent {s0 : Sched} (h : Going (some s.currentTask) s0 s) (code : ℤ) :
    Post (s.exitCurrent code) (Going (some s.currentTask) s0) := by
  intro s' hs' t ht huse hstate
  obtain ⟨huse', hpid, hstate'⟩ := h t ht huse hstate
  have hexits := (exits_exitCurrent s code s' hs').2.2 t
  refine ⟨hexits.inUse.trans huse', hexits.pid.trans hpid, fun he => ?_⟩
  exact (hexits.exited.mp he).elim (fun hc => ht (congrArg some hc.symm)) hstate'

/-- **The running task has not ended**, whatever happens. -/
theorem enduring_alive : Enduring Held (fun _ => True) Alive Alive where
  allows := lenient_held
  held hs hcur _ h := by
    unfold Alive
    rw [hcur]
    exact h.imp_right fun hne hexited => hne ((hs _).exited hexited)
  enter _ := trivial
  leave h := h
  schedule s _ := alive_schedule s
  free {s i} _ h := by
    refine h.imp_right fun hne => ?_
    rw [task_freeTaskSlot]
    split
    · exact nofun
    · exact hne
  create {s s1 i task} hslot hstate _ h := by
    have hnew := newSlot_of_createTaskSlot hslot
    have hcur : (s1.modify (.slot i) fun _ => task).currentTask = s.currentTask := hnew.currentTask
    unfold Alive
    rw [hcur, task_modify]
    refine h.imp_right fun hne => ?_
    split
    · exact hstate
    · rename_i ht
      rw [hnew.others _ ht]
      exact hne

end Sched

namespace Kernel

open Sched

variable {L : Layout} {k : Kernel} {e : TableEvent}

theorem fits_step (hfits : Fits k.sched) (hallowed : (tableSystem L).allowed k e)
    (himg : e.ImagesOk) : Post ((tableSystem L).step k e) fun k' => Fits k'.sched :=
  enduring_fits.step hfits hfits hallowed himg fun _ s code _ hs =>
    (keeps_exitCurrent s code).mono fun _ hk => hs.evolves (P := NoneNew) hk.evolves

/-- **The running task has not ended**, after any event with images in order. -/
theorem alive_step (hfits : Fits k.sched) (h : Alive k.sched)
    (hallowed : (tableSystem L).allowed k e) (himg : e.ImagesOk) :
    Post ((tableSystem L).step k e) fun k' => Alive k'.sched :=
  enduring_alive.step hfits h hallowed himg fun _ _ _ _ _ _ _ => trivial

/-- The task that an event ends, if any. -/
def dead (k : Kernel) (e : TableEvent) : Option TaskPtr :=
  if e.ends k then some k.sched.currentTask else none

/-- **Nobody but the task that ends is gone** after an event. -/
theorem going_step (hfits : Fits k.sched) (hallowed : (tableSystem L).allowed k e)
    (himg : e.ImagesOk) : Post ((tableSystem L).step k e) fun k' =>
      Fits k'.sched ∧ Going (k.dead e) k.sched k'.sched := by
  refine (fits_step hfits hallowed himg).and ((enduring_going (k.dead e) k.sched).step hfits ?_
    hallowed himg ?_)
  · exact fun t _ huse hstate => ⟨huse, rfl, hstate⟩
  · intro hends s code hbefore hs
    rw [dead, if_pos (TableEvent.ends_iff.mpr hends), ← hbefore.currentTask] at hs ⊢
    exact hs.exitCurrent code

end Kernel

end PokuOS
