import PokuOS.Sandbox
import PokuOS.Wait

/-!
# Invariants of the process table

What the kernel does to the process table is a short list of single writes, with `schedule` and
`watchdog_tick` on top. A property of the table reads a few fields of each task, and a relation
between tasks says which. If that relation allows the writes, the property is `Lasting`, and every
function of `process.c` keeps it. The functions that put a task into a slot, give one a program or
end one ask for the property of what they make.

If the relation also allows new tiers and new programs (`Lenient`), new tasks and the end of a
task are all that is left to look at.
-/

namespace PokuOS

/-! ## The end of a task -/

/-- The table as it was, for a task that ends: the same task runs, and nobody's state, parent or
place with the watchdog has changed. -/
structure Sched.AsBefore (s s' : Sched) : Prop where
  currentTask : s'.currentTask = s.currentTask
  inUse : ∀ t, (s'.task t).inUse = (s.task t).inUse
  state : ∀ t, (s'.task t).state = (s.task t).state
  parent : ∀ t, (s'.task t).parent = (s.task t).parent
  managed : ∀ t, (s'.task t).wdManaged = (s.task t).wdManaged

theorem Sched.AsBefore.refl (s : Sched) : AsBefore s s :=
  ⟨rfl, fun _ => rfl, fun _ => rfl, fun _ => rfl, fun _ => rfl⟩

/-- Other fields of the running task do not count. -/
theorem Sched.AsBefore.modify (s : Sched) {f : Task → Task}
    (hf : ∀ a, (f a).inUse = a.inUse ∧ (f a).state = a.state ∧ (f a).parent = a.parent ∧
      (f a).wdManaged = a.wdManaged) : AsBefore s (s.modify s.currentTask f) := by
  exact ⟨rfl, read_modify Task.inUse (fun a => (hf a).1) s _,
    read_modify Task.state (fun a => (hf a).2.1) s _,
    read_modify Task.parent (fun a => (hf a).2.2.1) s _,
    read_modify Task.wdManaged (fun a => (hf a).2.2.2) s _⟩

/-- The event ends the running task. -/
def KernelEvent.Ends (k : Kernel) : KernelEvent → Prop
  | .syscall (.exit _) => permitted (k.sched.task k.sched.currentTask).caps .exit = true
  | .tick => (k.sched.task k.sched.currentTask).killPending = true
  | .fault vaddr present write =>
    ¬ (((k.sched.task k.sched.currentTask).map = true ∧ present = true ∧ write = true) ∧
      ∃ vm, k.vm.vmFaultCow vaddr = some (0, vm))
  | _ => False

/-- When the running task ends, `E` is left of `I`. -/
def Kernel.EndsWell (E I : Sched → Prop) (k : Kernel) : Prop :=
  ∀ s code, Sched.AsBefore k.sched s → I s → Post (s.exitCurrent code) E

/-! ## Lasting properties -/

/-- The relation allows what the kernel writes to a task that is neither new nor given a program
or a tier, and does not end. -/
structure Handling (R : Task → Task → Prop) : Prop extends Charging R where
  /-- `sys_wait` -/
  waiting : ∀ a, R a { a with state := .waiting }
  /-- `kill_pending` -/
  kill : ∀ a pending, R a { a with killPending := pending }
  /-- memory pressure -/
  critical : ∀ a, R a (Kernel.makeCritical a)
  /-- `wd_managed` -/
  managed : ∀ a, R a { a with wdManaged := true }

/-- It also allows new tiers and programs. -/
structure Lenient (R : Task → Task → Prop) : Prop extends Handling R where
  tier : ∀ a tier, R a { a with tier := tier }
  /-- `tier_override` -/
  override : ∀ a n, R a { a with tierOverride := n }
  /-- `sys_exec` -/
  program : ∀ a pd entry stack pages, R a { a with
    cr3 := pd, userEntry := entry, userStack := stack, map := false, pagesCharged := pages }

/-- Every task is related to what it was. The running task, the watchdog's table and the counter
are as before. -/
structure Sched.Handled (R : Task → Task → Prop) (s s' : Sched) : Prop where
  /-- each task -/
  task : ∀ t, R (s.task t) (s'.task t)
  currentTask : s'.currentTask = s.currentTask
  wdTable : s'.wdTable = s.wdTable
  pidCounter : s'.pidCounter = s.pidCounter

/-- `I` is about what `R` leaves alone. When `schedule` is called, `E` is left of it, and `O` when
it returns. -/
structure Lasting (R : Task → Task → Prop) (E I O : Sched → Prop) : Prop where
  /-- single writes -/
  allows : Handling R
  /-- what it is about -/
  held : ∀ {s s'}, Sched.Handled R s s' → I s → I s'
  /-- calls of `schedule` -/
  enter : ∀ {s}, I s → E s
  /-- calls that do not call `schedule` -/
  leave : ∀ {s}, I s → O s
  schedule : ∀ s, E s → Post s.schedule O
  watchdogTick : ∀ s, I s → I s.watchdogTick
  /-- `sys_wait` frees the slot of a child that has ended -/
  reapChild : ∀ s i, Sched.Ended s s.currentTask (.slot i) → I s → I (s.freeTaskSlot (.slot i))
  /-- `sys_fork` frees the slot it has got -/
  giveUp : ∀ s s₁ i (f : Task → Task), s.createTaskSlot = (some i, s₁) → I s →
    I ((s₁.modify (.slot i) f).freeTaskSlot (.slot i))

namespace Lasting

open Sched

variable {R : Task → Task → Prop} {E I O : Sched → Prop} (hI : Lasting R E I O) {s : Sched}
include hI

theorem modify (h : I s) (t : TaskPtr) {f : Task → Task} (hf : R (s.task t) (f (s.task t))) :
    I (s.modify t f) :=
  hI.held ⟨(Via.modify hI.allows.toQueueing s t hf).task, rfl, rfl, rfl⟩ h

theorem kill (h : I s) (t : TaskPtr) (pending : Bool) :
    I (s.modify t fun task => { task with killPending := pending }) :=
  hI.modify h t (hI.allows.kill _ pending)

theorem same {s' : Sched} (h : I s) (htask : s'.task = s.task)
    (hcur : s'.currentTask = s.currentTask) (htable : s'.wdTable = s.wdTable)
    (hpid : s'.pidCounter = s.pidCounter) : I s' :=
  hI.held ⟨fun _ => htask ▸ hI.allows.refl _, hcur, htable, hpid⟩ h

theorem ticking : Ticking fun s s' => I s → I s' where
  trans h h' hs := h' (h hs)
  body hbody h := hI.held ⟨(Via.of_body hI.allows.toQueueing hbody).task, currentTask_eq hbody,
    (congrArg Sched.wdTable hbody :), (congrArg Sched.pidCounter hbody :)⟩ h
  level _ t _ h := hI.modify h t (hI.allows.level _ _)
  contTicks _ t _ h := hI.modify h t (hI.allows.contTicks _ _)
  ready _ t h := hI.modify h t (hI.allows.toScheduling.ready _)
  count _ _ h := hI.same h rfl rfl rfl rfl
  charge s h := hI.held ⟨(via_chargeQuota hI.allows.toMetering s).task, rfl, rfl, rfl⟩ h
  reset s h := hI.held ⟨(via_taskQuotaPeriodReset hI.allows.toMetering s).task, rfl, rfl, rfl⟩ h

theorem waitCurrent (h : I s) : Post s.waitCurrent I :=
  (frame_dequeueTask hI.ticking.toRelinking _ _).mono fun _ hs =>
    hs (hI.modify h _ (hI.allows.waiting _))

end Lasting

variable {argv : List CStr} {path : CStr} {file : FileRead} {mapped : Bool} {e : KernelEvent}

namespace Kernel

open Sched

/-- A task that passes the gate for `sys_fork` is in use: a free slot has no capabilities. -/
theorem inUse_of_permitted {k : Kernel} (h : Fits k.sched) (hcur : k.sched.currentTask ≠ .idle)
    {nr : SyscallNr} (hneed : syscallCaps nr ≠ 0)
    (hperm : permitted (k.sched.task k.sched.currentTask).caps nr) :
    (k.sched.task k.sched.currentTask).inUse = true := by
  by_contra huse
  have hzero := h.free _ hcur (Bool.eq_false_iff.mpr huse)
  have hcaps : (k.sched.task k.sched.currentTask).caps = 0#32 := congrArg Limits.caps hzero
  unfold permitted at hperm
  rw [hcaps, BitVec.zero_and, beq_iff_eq] at hperm
  exact hneed hperm.symm

variable {R : Task → Task → Prop} {E I O : Sched → Prop} (hI : Lasting R E I O) {L : Layout}
  {k : Kernel}
include hI

/-! ## Calls that make no task -/

theorem closed_handlePressure (h : I k.sched) : I k.handlePressure.sched := by
  unfold handlePressure
  split
  · exact hI.modify h _ (hI.allows.critical _)
  · exact h

theorem closed_loadCr3 (h : I k.sched) (pd : ℕ) : I (k.loadCr3 pd).sched :=
  hI.same h rfl rfl rfl rfl

theorem closed_schedule (h : E k.sched) : Post k.schedule fun k' => O k'.sched :=
  (hI.schedule _ h).bind fun _ hs => .some hs

theorem closed_taskExit {code : ℤ} (hexit : Post (k.sched.exitCurrent code) E) :
    Post (k.taskExit code) fun k' => O k'.sched :=
  hexit.bind fun s1 h1 => closed_schedule hI (k := { sched := s1, vm := _ }) h1

theorem closed_pitHandler (h : I k.sched) (hexit : KernelEvent.tick.Ends k → k.EndsWell E I) :
    Post k.pitHandler fun k' => O k'.sched := by
  unfold pitHandler
  split
  · rename_i hkill
    have hcount : I { k.sched with tickCount := (k.sched.tickCount + 1) % 2 ^ 32 } :=
      hI.same h rfl rfl rfl rfl
    have hbefore := AsBefore.modify { k.sched with tickCount := (k.sched.tickCount + 1) % 2 ^ 32 }
      (f := fun task => { task with killPending := false }) fun _ => ⟨rfl, rfl, rfl, rfl⟩
    refine closed_taskExit hI (hexit hkill _ _ ?_ (hI.kill hcount _ false))
    exact ⟨rfl, hbefore.inUse, hbefore.state, hbefore.parent, hbefore.managed⟩
  · rename_i hkill
    refine (frame_pitHandler hI.ticking k.sched (fun hdies => absurd hdies hkill)
      fun _ _ => hI.watchdogTick).bind fun s1 h1 => ?_
    exact closed_schedule hI (k := k.setSched s1) (hI.enter (h1 h))

omit hI in
theorem asBefore_handlePressure (k : Kernel) (vm : Vm) :
    AsBefore k.sched (handlePressure { k with vm := vm }).sched := by
  unfold handlePressure
  split
  · refine AsBefore.modify k.sched fun a => ?_
    unfold makeCritical
    split <;> exact ⟨rfl, rfl, rfl, rfl⟩
  · exact .refl _

section

variable (h : I k.sched)
include h

theorem closed_pageFault {vaddr : ℕ} {present write : Bool}
    (hexit : (KernelEvent.fault vaddr present write).Ends k → k.EndsWell E I) :
    Post (k.pageFault vaddr present write) fun k' => O k'.sched := by
  unfold pageFault
  split
  · cases hcow : k.vm.vmFaultCow vaddr with
    | none => exact .none
    | some r =>
      obtain ⟨r, vm⟩ := r
      have hpress := closed_handlePressure hI (k := { k with vm := vm }) h
      refine Post.bind (x := some (r, vm)) (P := fun p => p = (r, vm)) (.some rfl) ?_
      rintro _ rfl
      simp only
      split
      · exact .some (hI.leave hpress)
      · rename_i hr
        refine closed_taskExit hI (hexit ?_ _ _ (asBefore_handlePressure k vm) hpress)
        rintro ⟨-, vm', hvm'⟩
        exact hr (congrArg Prod.fst (Option.some.inj (hcow.symm.trans hvm')))
  · rename_i hmap
    exact closed_taskExit hI (hexit (fun hrepaired => hmap hrepaired.1) _ _ (.refl _) h)

theorem closed_sysWait (pid : ℤ) : Post (k.sysWait pid) fun k' => O k'.sched := by
  unfold sysWait
  split
  · exact .some (hI.leave h)
  rename_i i hfind
  split
  · rename_i hexited
    obtain ⟨⟨huse, hparent, -⟩, -⟩ := taskFindChild_eq_some hfind
    exact .some (hI.leave (hI.reapChild _ i ⟨huse, hparent, hexited⟩ h))
  · refine (hI.waitCurrent h).bind fun s1 h1 => ?_
    exact closed_schedule hI (k := k.setSched s1) (hI.enter h1)

theorem closed_sysKill (pid : ℤ) : I (k.sysKill pid).sched := by
  unfold sysKill
  split
  · exact h
  · split
    · exact h
    · exact hI.kill h _ true

theorem closed_expandHeap (vaddr : ℕ) : I (k.expandHeap vaddr).sched := by
  unfold expandHeap
  split
  · rename_i vm _
    exact closed_handlePressure hI (k := { k with vm := vm }) h
  · exact h

theorem closed_freeBuiltPd (pd targetCr3 : ℕ) : I (k.freeBuiltPd pd targetCr3).sched := by
  refine closed_handlePressure hI ?_
  exact closed_loadCr3 hI h targetCr3

theorem closed_yield : Post (k.perform L .yield) fun k' => O k'.sched := by
  refine (frame_yieldCurrent hI.ticking.toReleveling _).bind fun s1 hs => ?_
  exact closed_schedule hI (k := k.setSched s1) (hI.enter (hs h))

omit hI in
/-- `sys_tier_request`, if the property is kept by the tier. -/
theorem closed_sysTierRequest (tier : ℕ)
    (htier : Post (k.sched.taskSetTier k.sched.currentTask (tierOfInt tier)) I) :
    Post (k.sysTierRequest tier) fun k' => I k'.sched := by
  unfold sysTierRequest
  split
  · exact .some h
  · exact htier.bind fun s1 h1 => .some h1

omit hI in
/-- `sys_set_tier`, if it is also kept by the override. -/
theorem closed_sysSetTier (tier : ℕ)
    (htier : Post (k.sched.taskSetTier k.sched.currentTask (tierOfInt tier)) I)
    (hover : ∀ s, I s → I (s.modify k.sched.currentTask fun task =>
      { task with tierOverride := tier })) :
    Post (k.sysSetTier tier) fun k' => I k'.sched := by
  unfold sysSetTier
  split
  · exact .some h
  · exact htier.bind fun s1 h1 => .some (hover _ h1)

end

/-! ## `sys_fork` -/

variable {child : Fin maxTasks}

theorem closed_forkFail (h : I (k.sched.freeTaskSlot (.slot child))) (code : ℤ) :
    I (k.forkFail child code).2.sched :=
  closed_handlePressure hI (k := { k with sched := k.sched.freeTaskSlot (.slot child) }) h

theorem closed_forkCopy {pages : List (ℕ × Pte)} (hfree : I (k.sched.freeTaskSlot (.slot child)))
    (hchild : ∀ pd entry stack, I (k.sched.modify (.slot child) fun task => { task with
      cr3 := pd, userEntry := entry, userStack := stack, pagesCharged := pages.length })) :
    Post (k.forkCopy child pages) fun r => I r.2.sched := by
  refine forkCopy_rule (makes_const trivial _) (fun _ _ _ _ _ => trivial)
    (fun vm _ => closed_forkFail hI (k := { k with vm := vm }) hfree _)
    (fun pd vm _ => closed_forkFail hI ?_ _) fun pid pd vm s _ hs => ?_
  · exact hI.same hfree rfl rfl rfl rfl
  · subst hs
    refine frame_enqueueTask hI.ticking.toRelinking _ (.slot child) ?_
    exact hI.same (hchild _ _ _) rfl rfl rfl rfl

/-- `sys_fork`, if the table with the child satisfies the property. -/
theorem closed_sysFork (h : I k.sched) {sb : SandboxConfig}
    (hcur : k.sched.currentTask = .idle ∨ (k.sched.task k.sched.currentTask).inUse = true)
    (hchild : ∀ s1 child fields pd entry stack pages,
      k.sched.createTaskSlot = (some child, s1) → pages = k.vm.userPages.length →
      applySandbox (k.sched.task k.sched.currentTask)
        (forkFields k.sched.currentTask (s1.task (.slot child))) sb = .ok fields →
      ¬(fields.memLimit / pageSize % 2 ^ 32 ≠ 0 ∧
        fields.memLimit / pageSize % 2 ^ 32 < pages) →
      pages ≤ maxUserPages →
      I (s1.modify (.slot child) fun _ => { fields with
        cr3 := pd, userEntry := entry, userStack := stack, pagesCharged := pages })) :
    Post (k.sysFork sb) fun r => I r.2.sched := by
  refine sysFork_rule h (fun child s1 f code hslot => ?_) ?_
  · exact closed_forkFail hI (hI.giveUp _ s1 child f hslot h) code
  intro child s1 fields hslot hfields hpages hlimit
  have hnew := newSlot_of_createTaskSlot hslot
  have hparent : s1.task s1.currentTask = k.sched.task k.sched.currentTask := by
    rw [hnew.currentTask]
    refine hnew.others _ fun hc => ?_
    rcases hcur with hidle | huse
    · cases hidle.symm.trans hc
    · rw [hc, hnew.free] at huse
      cases huse
  rw [hparent, hnew.currentTask] at hfields
  refine closed_forkCopy hI (hI.giveUp _ s1 child _ hslot h) fun pd entry stack => ?_
  rw [modify_modify]
  exact hchild s1 child fields pd entry stack _ hslot rfl hfields hlimit hpages

/-! ## Programs -/

/-- `sys_exec` once the image is loaded, if the property is kept by the new program and by the
tier it gets. -/
theorem closed_execSwap {t : TaskPtr} {pd entry : ℕ} {resolved : CStr}
    (hswap : ∀ stack pages, I (k.sched.modify t fun task => { task with
      cr3 := pd, userEntry := entry, userStack := stack, map := false, pagesCharged := pages }))
    (htier : (k.sched.task t).tierOverride < 0 → ∀ s stack pages,
      s.task t = { k.sched.task t with
        cr3 := pd, userEntry := entry, userStack := stack, map := false, pagesCharged := pages } →
      I s → Post (s.taskSetTier t (elfAssignTier resolved)) I) :
    Post (k.execSwap t pd entry resolved argv) fun r => I r.2.sched := by
  unfold execSwap
  simp only
  split
  · refine Post.bind (P := I) ?_ fun s1 h1 => .some (hI.same h1 rfl rfl rfl rfl)
    unfold execTier
    split
    · rename_i hover
      rw [task_modify, if_pos rfl] at hover
      exact htier hover.1 _ _ _ ((task_modify ..).trans (if_pos rfl)) (hswap _ _)
    · exact .some (hswap _ _)
  · exact .none

theorem closed_sysExec (h : I k.sched)
    (hfile : ∀ mem data, file = .image mem data → ImageOk mem data)
    (hswap : ∀ s pd entry stack pages, s.task = k.sched.task → I s →
      I (s.modify k.sched.currentTask fun task => { task with
        cr3 := pd, userEntry := entry, userStack := stack, map := false, pagesCharged := pages }))
    (htier : ∀ mem data, file = .image mem data →
      (k.sched.task k.sched.currentTask).tierOverride < 0 → ∀ s pd entry stack pages,
      s.task k.sched.currentTask = { k.sched.task k.sched.currentTask with
        cr3 := pd, userEntry := entry, userStack := stack, map := false, pagesCharged := pages } →
      I s → Post (s.taskSetTier k.sched.currentTask (elfAssignTier
        (resolvePath (k.sched.task k.sched.currentTask).rootPath path resolvedSize))) I) :
    Post (k.sysExec L path argv file) fun r => I r.2.sched := by
  have hload : ∀ pd, I { k.sched with cr3 := pd } := fun pd => hI.same h rfl rfl rfl rfl
  refine sysExec_rule (B := fun _ _ => ∃ mem data, file = .image mem data) path argv
    (fun mem data hf => .const (hfile mem data hf) ⟨mem, data, hf⟩) (fun _ => h)
    (fun vm _ => closed_handlePressure hI (k := { k with vm := vm }) h)
    (fun _ pd vm _ => closed_freeBuiltPd hI (hload pd) _ _) ?_
  rintro pd vm entry ⟨mem, data, hf⟩
  refine closed_execSwap hI (fun stack pages => hswap _ _ _ _ _ rfl (hload pd)) ?_
  exact fun hover s stack pages => htier mem data hf hover s pd _ stack pages

/-- The table with the new task of `spawn_user_process` in slot `i` satisfies `J i`. -/
def SpawnsInto (I : Sched → Prop) (k : Kernel) (path : CStr) (mapped : Bool)
    (J : Fin maxTasks → Sched → Prop) : Prop :=
  ∀ s s1 i pd entry pages, I s → s.task = k.sched.task →
    s.pidCounter = k.sched.pidCounter → s.createTaskSlot = (some i, s1) →
    J i (s1.modify (.slot i) fun slot =>
      { createTaskFields s1.pageDirectory slot with
        map := mapped, pagesCharged := pages, cr3 := pd, userEntry := entry,
        userStack := userStackVirt + pageSize - 8, tier := elfAssignTier path,
        caps := spawnCaps (elfAssignTier path) })

/-- `spawn_user_process` of an image in order, for properties that do not depend on queues. -/
theorem closed_spawnUserProcess {J : Fin maxTasks → Sched → Prop}
    (hJ : ∀ i, Relinking fun s s' => J i s → J i s')
    (hJsame : ∀ {i s} pd, J i s → J i { s with cr3 := pd }) (h : I k.sched)
    (hfile : ∀ mem data, file = .image mem data → ImageOk mem data)
    (hnew : SpawnsInto I k path mapped J) :
    Post (k.spawnUserProcess L path file mapped) fun r =>
      (r.1 = none → I r.2.sched) ∧ ∀ i, r.1 = some i → J i r.2.sched := by
  have hload : ∀ pd, I { k.sched with cr3 := pd } := fun pd => hI.same h rfl rfl rfl rfl
  refine spawnUserProcess_rule path mapped (fun mem data hf => .const (hfile mem data hf) trivial)
    ⟨fun _ => h, nofun⟩ (fun vm _ => ⟨fun _ => ?_, nofun⟩) (fun pd vm _ => ⟨fun _ => ?_, nofun⟩)
    fun pd vm entry _ => ?_
  · exact closed_handlePressure hI (k := { k with vm := vm }) h
  · exact closed_handlePressure hI (closed_loadCr3 hI (hload pd) _)
  · unfold spawnTask
    split
    · exact ⟨fun _ => closed_loadCr3 hI (hload pd) _, nofun⟩
    · rename_i i s1 hslot
      refine ⟨nofun, fun j hj => ?_⟩
      cases hj
      refine frame_enqueueTask (hJ i) _ (.slot i) (hJsame _ ?_)
      exact hnew _ s1 i _ _ _ (hload pd) rfl rfl hslot

theorem closed_spawn (h : I k.sched)
    (hfile : ∀ mem data, file = .image mem data → ImageOk mem data)
    (hnew : SpawnsInto I k path mapped fun _ => I) :
    Post (k.spawnUserProcess L path file mapped) fun r => I r.2.sched := by
  refine (closed_spawnUserProcess hI (J := fun _ => I) (fun _ => hI.ticking.toRelinking)
    (fun _ hs => hI.same hs rfl rfl rfl rfl) h hfile hnew).mono fun r hr => ?_
  cases hi : r.1 with
  | none => exact hr.1 hi
  | some i => exact hr.2 i hi

/-! ## Events -/

/-- A system call, if forks, programs and tiers keep the property. -/
theorem closed_syscallHandler (hfits : Fits k.sched) (h : I k.sched) {call : Call}
    (hcur : k.sched.currentTask ≠ .idle)
    (hexit : (KernelEvent.syscall call).Ends k → k.EndsWell E I)
    (hfork : ∀ sb, (call = .fork ∧ sb = .inherit ∨ call = .forkWithSandbox (some sb)) →
      (k.sched.task k.sched.currentTask).inUse = true →
      Post (k.sysFork sb) fun r => I r.2.sched)
    (hexec : ∀ path argv file, call = .exec (some path) argv file →
      Post (k.sysExec L path argv file) fun r => I r.2.sched)
    (hrequest : ∀ tier, call = .tierRequest tier → permitted
      (k.sched.task k.sched.currentTask).caps .tierRequest →
      Post (k.sysTierRequest tier) fun k' => I k'.sched)
    (hset : ∀ tier, call = .setTier tier → permitted
      (k.sched.task k.sched.currentTask).caps .setTier →
      Post (k.sysSetTier tier) fun k' => I k'.sched) :
    Post (k.syscallHandler L call) fun k' => O k'.sched := by
  unfold syscallHandler
  split
  swap
  · exact .some (hI.leave h)
  rename_i hperm
  have huse : syscallCaps call.nr = capFork → (k.sched.task k.sched.currentTask).inUse = true :=
    fun hneed => inUse_of_permitted hfits hcur (by rw [hneed]; decide) hperm
  have hfork' : ∀ sb, (call = .fork ∧ sb = .inherit ∨ call = .forkWithSandbox (some sb)) →
      syscallCaps call.nr = capFork → Post ((k.sysFork sb).map Prod.snd) fun k' => O k'.sched :=
    fun sb hcall hneed => (hfork sb hcall (huse hneed)).map fun _ => hI.leave
  cases call with
  | fork => exact hfork' .inherit (.inl ⟨rfl, rfl⟩) rfl
  | forkWithSandbox sb =>
    cases sb with
    | none => exact .some (hI.leave h)
    | some sb => exact hfork' sb (.inr rfl) rfl
  | exec path argv file =>
    cases path with
    | none => exact .some (hI.leave h)
    | some path => exact (hexec path argv file rfl).map fun _ => hI.leave
  | exit code => exact closed_taskExit hI (hexit hperm _ _ (.refl _) h)
  | wait pid => exact closed_sysWait hI h pid
  | yield => exact closed_yield hI (L := L) h
  | kill pid => exact .some (hI.leave (closed_sysKill hI h pid))
  | tierRequest tier => exact (hrequest tier rfl hperm).mono fun _ => hI.leave
  | setTier tier => exact (hset tier rfl hperm).mono fun _ => hI.leave
  | other nr => exact .some (hI.leave h)

/-- **An event**, if system calls, new programs and registrations keep the property. -/
theorem closed_apply (h : I k.sched) (hexit : e.Ends k → k.EndsWell E I)
    (hcall : ∀ call, e = .syscall call → Post (k.syscallHandler L call) fun k' => O k'.sched)
    (hspawn : ∀ path file mapped, e = .spawn path file mapped →
      Post (k.spawnUserProcess L path file mapped) fun r => I r.2.sched)
    (hregister : ∀ path tier i, e = .register path tier i →
      I (k.sched.watchdogRegister path tier (i.map .slot)).2) :
    Post (e.apply L k) fun k' => O k'.sched := by
  cases e with
  | syscall call => exact hcall call rfl
  | tick => exact closed_pitHandler hI h hexit
  | fault vaddr present write => exact closed_pageFault hI h hexit
  | spawn path file mapped => exact (hspawn path file mapped rfl).map fun _ => hI.leave
  | register path tier i => exact .some (hI.leave (hregister path tier i rfl))
  | expandHeap vaddr => exact .some (hI.leave (closed_expandHeap hI h vaddr))
  | schedule => exact closed_schedule hI (hI.enter h)

end Kernel

/-- The event calls `sys_fork`. -/
def KernelEvent.forks : KernelEvent → Bool
  | syscall .fork => true
  | syscall (.forkWithSandbox _) => true
  | _ => false

/-- The image an event loads, if it loads one, is in order. -/
def KernelEvent.ImagesOk : KernelEvent → Prop
  | syscall (.exec _ _ (.image mem data)) => ImageOk mem data
  | spawn _ (.image mem data) _ => ImageOk mem data
  | _ => True

/-- What can be said of a task the event creates. -/
def KernelEvent.Admits (k : Kernel) (e : KernelEvent) : Limits → Prop :=
  if e.forks then Restricted (k.sched.task k.sched.currentTask).limits else fun _ => True

/-- The kernel from boot on, over any page tables. The idle task makes no system calls and has
no user mode. -/
def kernelSystem (L : Layout) : System Kernel KernelEvent where
  init k := ∃ pageDirectory, k.sched = Sched.taskInit pageDirectory ∧ k.vm.cr3 = pageDirectory
  allowed k
    | .syscall _ => k.sched.currentTask ≠ .idle
    | .fault _ _ _ => k.sched.currentTask ≠ .idle
    | _ => True
  step k e := e.apply L k

theorem ne_idle_of_forks {L : Layout} {k : Kernel} (hallowed : (kernelSystem L).allowed k e)
    (hforks : e.forks = true) : k.sched.currentTask ≠ .idle := by
  cases e with
  | syscall _ => exact hallowed
  | _ => cases hforks

/-- In the course of the event `e`, slot `i` of the table `s` is given to `task`. -/
structure Kernel.Creates (k : Kernel) (e : KernelEvent) (s s₁ : Sched) (i : Fin maxTasks)
    (task : Task) : Prop where
  same : s.task = k.sched.task
  pidCounter : s.pidCounter = k.sched.pidCounter
  /-- the slot -/
  slot : s.createTaskSlot = (some i, s₁)
  pid : task.pid = (s₁.task (.slot i)).pid
  inUse : task.inUse = (s₁.task (.slot i)).inUse
  state : task.state = .ready
  /-- its parent, if it has one, has forked -/
  parent : ∀ p, task.parent = some p →
    p = k.sched.currentTask ∧ (k.sched.task p).inUse = true ∧ e.forks = true
  /-- its limits -/
  limits : e.Admits k task.limits

namespace Lasting

open Sched Kernel

variable {R : Task → Task → Prop} {E I O : Sched → Prop} (hI : Lasting R E I O) {s : Sched}
include hI

/-! ## New tasks -/

variable {L : Layout} {k : Kernel}

theorem sysFork (h : I k.sched) {call : Call} {sb : SandboxConfig}
    (hcall : call = .fork ∧ sb = .inherit ∨ call = .forkWithSandbox (some sb))
    (huse : (k.sched.task k.sched.currentTask).inUse = true)
    (hnew : ∀ {s s1 i task}, I s → k.Creates (.syscall call) s s1 i task →
      I (s1.modify (.slot i) fun _ => task)) :
    Post (k.sysFork sb) fun r => I r.2.sched := by
  refine closed_sysFork hI h (.inr huse) ?_
  intro s1 child fields pd entry stack pages hslot _ hfields _ _
  have hforks : (KernelEvent.syscall call).forks = true := by
    rcases hcall with ⟨rfl, -⟩ | rfl <;> rfl
  obtain ⟨hres, hpid, hin⟩ := restricted_applySandbox hfields
  have hstate : fields.state = .ready ∧ fields.parent = some k.sched.currentTask := by
    obtain ⟨_, _, _, -, -, rfl⟩ := applySandbox_eq_ok hfields
    exact ⟨rfl, rfl⟩
  refine hnew h ⟨rfl, rfl, hslot, hpid, hin, hstate.1, fun p hp => ?_, ?_⟩
  · obtain rfl : k.sched.currentTask = p := Option.some.inj (hstate.2.symm.trans hp)
    exact ⟨rfl, huse, hforks⟩
  · rw [KernelEvent.Admits, if_pos hforks]
    exact hres

theorem spawn (h : I k.sched) (hfile : ∀ mem data, file = .image mem data → ImageOk mem data)
    (hnew : ∀ {s s1 i task}, I s → k.Creates (.spawn path file mapped) s s1 i task →
      I (s1.modify (.slot i) fun _ => task)) :
    Post (k.spawnUserProcess L path file mapped) fun r => I r.2.sched := by
  refine closed_spawn hI h hfile fun s s1 i _ _ _ hs htask hcount hslot => ?_
  exact hnew hs ⟨htask, hcount, hslot, rfl, rfl, rfl, nofun, trivial⟩

/-! ## Tiers and programs -/

variable (hR : Lenient R)
include hR

theorem taskSetTier (h : I s) (t : TaskPtr) (tier : Tier) : Post (s.taskSetTier t tier) I :=
  (frame_taskSetTier hI.ticking.toRelinking (fun _ hs => hI.modify hs t (hR.tier _ _)) s).mono
    fun _ hs => hs h

theorem sysExec (h : I k.sched) (hfile : ∀ mem data, file = .image mem data → ImageOk mem data) :
    Post (k.sysExec L path argv file) fun r => I r.2.sched :=
  closed_sysExec hI h hfile
    (fun _ _ _ _ _ _ hs => hI.modify hs _ (hR.program _ _ _ _ _))
    fun _ _ _ _ _ _ _ _ _ _ hs => hI.taskSetTier hR hs _ _

/-- **An event keeps a lasting property**, if the tasks that it creates and the one that it ends
do, and its images are in order. -/
theorem apply (hfits : Fits k.sched) (h : I k.sched) (hallowed : (kernelSystem L).allowed k e)
    (himg : e.ImagesOk) (hexit : e.Ends k → k.EndsWell E I)
    (hnew : ∀ {s s1 i task}, I s → k.Creates e s s1 i task → I (s1.modify (.slot i) fun _ => task))
    (hregister : ∀ path tier i, e = .register path tier i →
      I (k.sched.watchdogRegister path tier (i.map .slot)).2) :
    Post (e.apply L k) fun k' => O k'.sched := by
  refine closed_apply hI h hexit ?_ ?_ hregister
  · rintro call rfl
    refine closed_syscallHandler hI hfits h hallowed hexit
      (fun sb hcall huse => hI.sysFork h hcall huse hnew) ?_
      (fun tier _ _ => closed_sysTierRequest h tier (hI.taskSetTier hR h _ _))
      fun tier _ _ => closed_sysSetTier h tier (hI.taskSetTier hR h _ _) fun _ hs =>
        hI.modify hs _ (hR.override _ _)
    rintro path argv file rfl
    refine hI.sysExec hR h fun mem data hfile => ?_
    subst hfile
    exact himg
  · rintro path file mapped rfl
    refine hI.spawn h (fun mem data hfile => ?_) hnew
    subst hfile
    exact himg

end Lasting

end PokuOS
