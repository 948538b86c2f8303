import PokuOS.Frame

/-!
# What the scheduler leaves alone

A task's `Profile` is what it may do and what it owns: identity, tier, capabilities, limits,
root and address space. Scheduling, queues, quotas and the watchdog never change the profile
of a task, except that a slot may be freed: `Sched.Keeps`. That is so whatever state the queues
are in.
-/

namespace PokuOS

/-- The part of a task that scheduling does not change. -/
structure Profile where
  pid : ℕ
  inUse : Bool
  tier : Tier
  tierOverride : ℤ
  caps : BitVec 32
  memLimit : ℕ
  cpuQuota : ℕ
  rootPath : CStr
  cr3 : ℕ
  deriving DecidableEq

/-- The profile of a task. -/
def Task.profile (t : Task) : Profile where
  pid := t.pid
  inUse := t.inUse
  tier := t.tier
  tierOverride := t.tierOverride
  caps := t.caps
  memLimit := t.memLimit
  cpuQuota := t.cpuQuota
  rootPath := t.rootPath
  cr3 := t.cr3

namespace Sched

/-- Every profile is as before, or its slot is free now. -/
structure Keeps (s s' : Sched) : Prop where
  /-- profiles -/
  task : ∀ t, (s'.task t).profile = (s.task t).profile ∨
    t ≠ .idle ∧ (s'.task t).profile = Task.zero.profile
  pidCounter : s'.pidCounter = s.pidCounter
  pageDirectory : s'.pageDirectory = s.pageDirectory

variable {s s' s'' : Sched}

namespace Keeps

theorem refl (s : Sched) : Keeps s s := ⟨fun _ => .inl rfl, rfl, rfl⟩

theorem trans (h : Keeps s s') (h' : Keeps s' s'') : Keeps s s'' := by
  refine ⟨fun t => ?_, h'.pidCounter.trans h.pidCounter, h'.pageDirectory.trans h.pageDirectory⟩
  rcases h'.task t with ht' | ht'
  · rcases h.task t with ht | ht
    · exact .inl (ht'.trans ht)
    · exact .inr ⟨ht.1, ht'.trans ht.2⟩
  · exact .inr ht'

/-- A change that does not touch profiles. -/
theorem modify (s : Sched) (t : TaskPtr) {f : Task → Task}
    (hf : ∀ task, (f task).profile = task.profile) : Keeps s (s.modify t f) := by
  exact ⟨fun t' => .inl (read_modify Task.profile hf s t t'), rfl, rfl⟩

end Keeps

/-- Scheduling and changes of level do not write the profile. -/
theorem leveling_profile : Leveling fun a b => b.profile = a.profile where
  refl _ := rfl
  trans h h' := h'.trans h
  links _ _ _ := rfl
  ready _ := rfl
  running _ := rfl
  timeslice _ _ := rfl
  level _ _ := rfl
  contTicks _ _ := rfl

theorem ending_profile : Ending fun a b => b.profile = a.profile where
  toLeveling := leveling_profile
  woken _ _ := rfl
  ended _ _ := rfl
  orphan _ := rfl

theorem Via.keeps (h : Via (fun a b => b.profile = a.profile) s s') : Keeps s s' :=
  ⟨fun t => .inl (h.task t), h.pidCounter, h.pageDirectory⟩

/-! ## Queues and `schedule` -/

theorem keeps_enqueueTask (s : Sched) (t : TaskPtr) : Keeps s (s.enqueueTask t) :=
  (via_enqueueTask leveling_profile.toQueueing s t).keeps

/-- **`schedule` keeps every profile.** -/
theorem keeps_schedule (s : Sched) : Post s.schedule (Keeps s) :=
  (via_schedule leveling_profile.toScheduling s).mono fun _ h => h.keeps

/-! ## The watchdog -/

theorem keeps_freeTaskSlot (s : Sched) (t : TaskPtr) : Keeps s (s.freeTaskSlot t) := by
  cases t with
  | idle => exact .refl s
  | slot i =>
    refine ⟨fun t => ?_, rfl, rfl⟩
    unfold freeTaskSlot
    rw [task_modify]
    split
    · rename_i ht
      exact .inr ⟨by rw [ht]; nofun, rfl⟩
    · exact .inl rfl

theorem keeps_wdTickAll (es : List WdEntry) (s : Sched) : Keeps s (s.wdTickAll es).2 :=
  wdTickAll_rule (fun s1 t _ h1 => h1.trans (keeps_freeTaskSlot s1 t)) es (.refl s)

theorem keeps_watchdogTick (s : Sched) : Keeps s s.watchdogTick :=
  watchdogTick_rule (P := Keeps s) (fun _ _ _ h => ⟨h.task, h.pidCounter, h.pageDirectory⟩)
    (fun s1 t _ h1 => h1.trans (keeps_freeTaskSlot s1 t)) (.refl s)

theorem keeps_watchdogRegister (s : Sched) (path : CStr) (tier : Tier) (t : Option TaskPtr) :
    Keeps s (s.watchdogRegister path tier t).2 :=
  watchdogRegister_rule (P := Keeps s) (fun _ _ h => ⟨h.task, h.pidCounter, h.pageDirectory⟩)
    (fun s1 t h => h.trans (.modify s1 t fun _ => rfl)) (.refl s) path tier t

/-! ## Ending and waiting -/

theorem keeps_exitCurrent (s : Sched) (code : ℤ) : Post (s.exitCurrent code) (Keeps s) :=
  (via_exitCurrent ending_profile.toClosing s code).mono fun _ h => h.keeps

theorem keeps_waitCurrent (s : Sched) : Post s.waitCurrent (Keeps s) :=
  (via_waitCurrent leveling_profile.toQueueing (fun _ => rfl) s).mono fun _ h => h.keeps

end Sched

end PokuOS
