import PokuOS.TableInv

/-!
# Invariants of single tasks

A predicate of tasks holds of all tasks along every run if each write the kernel makes to a task
keeps it: `Kept`. The functions that give a task new fields — `sys_fork`, `sys_exec`,
`spawn_user_process` and changes of tier — ask for the predicate of what they make; nothing
else has to be shown per function.
-/

namespace PokuOS

/-- `P` survives whatever the kernel does to a task that is neither new nor given a program or
a tier. -/
structure Kept (P : Task → Prop) : Prop where
  /-- scheduling, and the end of a task -/
  ending : Ending fun a b => P a → P b
  /-- quota accounting -/
  quota : ∀ a used done, P a → P { a with quotaUsedTicks := used, quotaDone := done }
  /-- `sys_wait` -/
  waiting : ∀ a, P a → P { a with state := .waiting }
  /-- a free slot -/
  zero : P Task.zero
  /-- `kill_pending` -/
  kill : ∀ a pending, P a → P { a with killPending := pending }
  /-- `wd_managed` -/
  managed : ∀ a, P a → P { a with wdManaged := true }
  /-- memory pressure -/
  critical : ∀ a, P a → P (Kernel.makeCritical a)

theorem Kept.handling {P : Task → Prop} (h : Kept P) : Handling fun a b => P a → P b where
  toLeveling := h.ending.toLeveling
  quota := h.quota
  waiting := h.waiting
  kill := h.kill
  critical := h.critical
  managed := h.managed

/-- Every task satisfies `P`. -/
def Sched.All (P : Task → Prop) (s : Sched) : Prop := ∀ t, P (s.task t)

namespace Sched.All

variable {P : Task → Prop} {s s' : Sched}

variable (h : s.All P)
include h

theorem via (hv : Via (fun a b => P a → P b) s s') : s'.All P :=
  fun t => hv.task t (h t)

variable {f : Task → Task}

theorem modify_at {t : TaskPtr} (hf : P (f (s.task t))) : (s.modify t f).All P := by
  intro p
  rw [task_modify]
  split
  · exact hf
  · exact h p

theorem modify (t : TaskPtr) (hf : ∀ a, P a → P (f a)) : (s.modify t f).All P :=
  h.modify_at (hf _ (h t))

theorem freeTaskSlot (hP : Kept P) (t : TaskPtr) : (s.freeTaskSlot t).All P := by
  cases t with
  | idle => exact h
  | slot i => exact h.modify (.slot i) fun _ _ => hP.zero

theorem watchdogRegister (hP : Kept P) (path : CStr) (tier : Tier)
    (t : Option TaskPtr) : (s.watchdogRegister path tier t).2.All P :=
  watchdogRegister_rule (P := Sched.All P) (fun _ _ h => h) (fun _ t h => h.modify t hP.managed) h
    path tier t

/-- A tier that the task may have. -/
theorem taskSetTier (hP : Kept P) {t : TaskPtr} {tier : Tier}
    (ht : P { s.task t with tier := tier }) : Post (s.taskSetTier t tier) (Sched.All P) :=
  (taskSetTier_body s t tier).mono fun _ hbody =>
    All.via (h.modify_at (f := fun task => { task with tier := tier }) ht)
      (.of_body hP.ending.toQueueing hbody)

theorem create {i : Fin maxTasks} (hslot : s.createTaskSlot = (some i, s'))
    (hf : P (f (s'.task (.slot i)))) : (s'.modify (.slot i) f).All P := by
  intro t
  rw [task_modify]
  split
  · exact hf
  · rename_i ht
    rw [(newSlot_of_createTaskSlot hslot).others t ht]
    exact h t

end Sched.All

/-- **An invariant of single tasks is one of the process table.** -/
theorem Kept.lasting {P : Task → Prop} (hP : Kept P) :
    Lasting (fun a b => P a → P b) (Sched.All P) (Sched.All P) (Sched.All P) where
  allows := hP.handling
  held hs h t := hs.task t (h t)
  enter h := h
  leave h := h
  schedule s h := (Sched.via_schedule hP.ending.toScheduling s).mono fun _ => h.via
  watchdogTick _ h := Sched.watchdogTick_rule (P := Sched.All P) (fun _ _ _ h => h)
    (fun _ t _ h => h.freeTaskSlot hP t) h
  reapChild _ _ _ h := h.freeTaskSlot hP _
  giveUp s s1 i f hslot h := by
    rw [Sched.freeTaskSlot_modify]
    exact h.create hslot hP.zero

theorem Kept.endsWell {P : Task → Prop} (hP : Kept P) (k : Kernel) :
    k.EndsWell (Sched.All P) (Sched.All P) := fun s code _ h =>
  (Sched.via_exitCurrent hP.ending.toClosing s code).mono fun _ => h.via

end PokuOS
