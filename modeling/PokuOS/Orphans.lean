import PokuOS.Enduring

/-!
# Orphans

A task that ends without a parent and without the watchdog keeps its slot until
`task_reap_orphans` frees it, and nothing calls that. Such a slot is made when a task ends that
has no parent, or that has children which have ended before it.

* `Sched.MayEnd` — the running task can end without leaving such a slot.
* `no_orphans` — **no slot is lost** in the runs in which tasks end with a parent or the
  watchdog behind them, and without such children.
* `orphan_stays` — a slot that is lost.
-/

namespace PokuOS

/-- Only `task_reap_orphans` would free the slot. -/
structure Task.Orphaned (task : Task) : Prop where
  inUse : task.inUse = true
  /-- `state` -/
  exited : task.state = .exited
  parent : task.parent = none
  /-- `wd_managed` -/
  managed : task.wdManaged = false

namespace Sched

/-- There is no such slot. -/
abbrev NoOrphans (s : Sched) : Prop := s.All fun task => ¬ task.Orphaned

/-- The running task may end: it has a parent, or belongs to the watchdog, and its children that
have ended belong to the watchdog. -/
structure MayEnd (s : Sched) : Prop where
  /-- who frees its slot -/
  owned : ((s.task s.currentTask).parent ≠ none ∧
      (s.task s.currentTask).parent ≠ some s.currentTask) ∨
    (s.task s.currentTask).wdManaged = true
  /-- who frees the slots of its children -/
  children : ∀ c, (s.task c).inUse = true → (s.task c).state = .exited →
    (s.task c).parent = some s.currentTask → (s.task c).wdManaged = true

variable {s s' : Sched}

theorem not_orphaned_of_held {a b : Task} (h : Held a b) (ha : ¬ a.Orphaned) : ¬ b.Orphaned := by
  intro hb
  refine ha ⟨h.inUse ▸ hb.inUse, h.exited hb.exited, h.parent ▸ hb.parent, ?_⟩
  by_contra hm
  cases hb.managed.symm.trans (h.managed (Bool.eq_true_of_not_eq_false hm))

/-- **Only a task that ends becomes an orphan.** -/
theorem enduring_noOrphans : Enduring Held NoOrphans NoOrphans NoOrphans where
  allows := lenient_held
  held hs _ _ h t := not_orphaned_of_held (hs t) (h t)
  enter h := h
  leave h := h
  schedule s h := (via_schedule charging_held.toScheduling s).mono fun _ hv t =>
    not_orphaned_of_held (hv.task t) (h t)
  free _ h := All.modify h (.slot _) (f := fun _ => Task.zero) fun _ _ hzero =>
    nomatch hzero.inUse
  create hslot hstate _ h := h.create hslot fun horphan => hstate horphan.exited

/-- **A task that may end leaves no orphan.** -/
theorem NoOrphans.exitCurrent (h : s.NoOrphans) (hend : s.MayEnd) (code : ℤ) :
    Post (s.exitCurrent code) NoOrphans := by
  refine (exits_exitCurrent s code).mono ?_
  rintro s' ⟨-, -, hexits⟩ c hc
  have hexit := hexits c
  have hmanaged : (s.task c).wdManaged ≠ true := fun hm =>
    nomatch hc.managed.symm.trans (hexit.managed.trans hm)
  have huse : (s.task c).inUse = true := hexit.inUse ▸ hc.inUse
  rcases hexit.exited.mp hc.exited with rfl | hended
  · rcases hend.owned with ⟨hsome, hother⟩ | howned
    · rcases hexit.parent_cases with hsame | ⟨hself, -⟩
      · exact hsome (hsame.symm.trans hc.parent)
      · exact hother hself
    · exact hmanaged howned
  · rcases hexit.parent_cases with hsame | ⟨hchild, -⟩
    · exact h c ⟨huse, hended, hsame ▸ hc.parent, Bool.eq_false_of_not_eq_true hmanaged⟩
    · exact hmanaged (hend.children c huse hended hchild)

theorem MayEnd.asBefore (h : s.MayEnd) (hs : AsBefore s s') : s'.MayEnd := by
  refine ⟨?_, fun c huse hstate hparent => ?_⟩
  · rw [hs.currentTask, hs.parent, hs.managed]
    exact h.owned
  · rw [hs.inUse] at huse
    rw [hs.state] at hstate
    rw [hs.parent, hs.currentTask] at hparent
    rw [hs.managed]
    exact h.children c huse hstate hparent

end Sched

/-! ## Runs -/

/-- The kernel as it runs: nothing calls `task_reap_orphans`. -/
abbrev idleSystem (L : Layout) : System Kernel TableEvent :=
  (tableSystem L).restrict fun _ e => e ≠ .reap

/-- Images are in order, and a task that ends may end. -/
def TableEvent.Accounted (k : Kernel) : TableEvent → Prop
  | .kernel e => e.ImagesOk ∧ (e.Ends k → k.sched.MayEnd)
  | .check reads => ∀ i mem data, (reads i).1 = .image mem data → ImageOk mem data
  | .reap => True

variable {k : Kernel} {e : TableEvent}

theorem TableEvent.Accounted.imagesOk (h : e.Accounted k) : e.ImagesOk := by
  cases e with
  | kernel e => exact h.1
  | check reads => exact h
  | reap => trivial

theorem TableEvent.Accounted.mayEnd (h : e.Accounted k) (hends : e.Ends k) : k.sched.MayEnd := by
  cases e with
  | kernel e => exact h.2 hends
  | check reads => exact hends.elim
  | reap => exact hends.elim

/-- The runs in which every event is accounted for. -/
abbrev accountedSystem (L : Layout) : System Kernel TableEvent :=
  (idleSystem L).restrict fun k e => e.Accounted k

/-- **No slot is lost.** In every run whose images are in order, and in which tasks end only with
a parent or the watchdog behind them and without children that have ended, no slot is in use for
a task that has ended and that nobody will free. -/
theorem no_orphans (L : Layout) {k : Kernel} (h : (accountedSystem L).Reachable k) :
    k.sched.NoOrphans := by
  refine (System.Reachable.invariant (S := accountedSystem L)
    (I := fun k => k.sched.Fits ∧ k.sched.NoOrphans) ?_ ?_ h).2
  · rintro k ⟨pageDirectory, hsched, -⟩
    rw [hsched]
    refine ⟨fits_taskInit _, fun t horphan => ?_⟩
    cases t <;> exact nomatch horphan.inUse
  · rintro k e k' ⟨hfits, hnone⟩ ⟨hallowed, hacc⟩ hstep
    refine ⟨Kernel.fits_step hfits hallowed.1 hacc.imagesOk k' hstep,
      Sched.enduring_noOrphans.step hfits hnone hallowed.1 hacc.imagesOk ?_ k' hstep⟩
    intro hends s code hbefore hs
    exact hs.exitCurrent ((hacc.mayEnd hends).asBefore hbefore) code

/-! ### Two runs -/

instance (s : Sched) : Decidable s.MayEnd :=
  decidable_of_iff
    ((((s.task s.currentTask).parent ≠ none ∧
        (s.task s.currentTask).parent ≠ some s.currentTask) ∨
      (s.task s.currentTask).wdManaged = true) ∧
      ∀ c, (s.task c).inUse = true → (s.task c).state = .exited →
        (s.task c).parent = some s.currentTask → (s.task c).wdManaged = true)
    ⟨fun h => ⟨h.1, h.2⟩, fun h => ⟨h.owned, h.children⟩⟩

/-- An event that ends no task and loads no image. -/
def TableEvent.harmless (k : Kernel) : TableEvent → Bool
  | .kernel (.syscall .fork) | .kernel (.syscall (.wait _)) =>
    decide (k.sched.currentTask ≠ .idle)
  | .kernel (.register _ _ _) | .kernel .schedule => true
  | _ => false

variable {L : Layout}

theorem TableEvent.allowed_of_harmless (h : e.harmless k = true) :
    (accountedSystem L).allowed k e := by
  unfold harmless at h
  split at h
  · have hcur : k.sched.currentTask ≠ .idle := of_decide_eq_true h
    exact ⟨⟨hcur, nofun⟩, trivial, nofun⟩
  · have hcur : k.sched.currentTask ≠ .idle := of_decide_eq_true h
    exact ⟨⟨hcur, nofun⟩, trivial, nofun⟩
  · exact ⟨⟨trivial, nofun⟩, trivial, nofun⟩
  · exact ⟨⟨trivial, nofun⟩, trivial, nofun⟩
  · cases h

theorem reachable_program_accounted :
    (accountedSystem capsLayout).Reachable programState.kernel := by
  have hrun : (accountedSystem capsLayout).run bootState.kernel (startProgram.map .kernel) =
      some programState.kernel :=
    (System.run_restrict _ _).trans ((System.run_restrict _ _).trans
      ((run_tableSystem _ _ _).trans run_startProgram_kernel))
  refine System.reachable_run (S := accountedSystem capsLayout) (.init ⟨300, rfl, rfl⟩) ?_ hrun
  exact ⟨⟨⟨trivial, nofun⟩, imageOk_program, nofun⟩,
    fun _ _ => ⟨⟨⟨trivial, nofun⟩, trivial, nofun⟩, fun _ _ => trivial⟩⟩

/-- The running task may call `sys_exit`, and what is scheduled then satisfies `p`. -/
def Sched.exitsTo (p : Sched → Bool) (s : Sched) : Bool :=
  decide (s.currentTask ≠ .idle ∧ permitted (s.task s.currentTask).caps .exit = true) &&
    ((s.exitCurrent 0).bind Sched.schedule).any p

/-- **The running task ends.** It makes the call `sys_exit`. -/
theorem exists_exit {p : Sched → Bool} (h : k.sched.exitsTo p = true) :
    k.sched.currentTask ≠ .idle ∧
    ∃ k', (tableSystem L).step k (.kernel (.syscall (.exit 0))) = some k' ∧
      p k'.sched = true := by
  simp only [Sched.exitsTo, Bool.and_eq_true, decide_eq_true_eq, Option.any_eq_true] at h
  obtain ⟨⟨hcur, hperm⟩, s, hs, hp⟩ := h
  obtain ⟨k', hk', rfl⟩ := Option.map_eq_some_iff.mp ((k.sched_taskExit 0).trans hs)
  exact ⟨hcur, k', (if_pos hperm).trans hk', hp⟩

/-- The slot of the child is in use, and the child has ended. -/
def childEnded (s : Sched) : Bool :=
  decide ((s.task (.slot 1)).inUse = true ∧ (s.task (.slot 1)).state = .exited)

/-- A child ends while its parent waits: its slot is in use, and not lost. -/
theorem no_orphans_child : ∃ k, (accountedSystem capsLayout).Reachable k ∧
    (k.sched.task (.slot 1)).inUse = true ∧ (k.sched.task (.slot 1)).state = .exited ∧
    k.sched.NoOrphans := by
  obtain ⟨k1, hk1, hmay, hexit⟩ := System.exists_reachable (S := accountedSystem capsLayout)
    (fun k e => e.harmless k) [.kernel (.syscall .fork), .kernel (.syscall (.wait (-1)))]
    (fun k => k.sched.MayEnd ∧ k.sched.exitsTo childEnded)
    (fun _ _ => TableEvent.allowed_of_harmless) reachable_program_accounted (by decide +kernel)
  obtain ⟨hcur, k, hk, hended⟩ := exists_exit (L := capsLayout) hexit
  have hreach : (accountedSystem capsLayout).Reachable k :=
    hk1.step (e := .kernel (.syscall (.exit 0)))
      ⟨⟨hcur, nofun⟩, trivial, fun _ => hmay⟩ hk
  obtain ⟨huse, hstate⟩ := of_decide_eq_true hended
  exact ⟨k, hreach, huse, hstate, no_orphans capsLayout hreach⟩

/-- No entry of the watchdog is due, so `watchdog_check` does nothing. -/
theorem watchdogCheck_of_idle {reads : ℕ → FileRead × Bool}
    (h : ∀ e ∈ k.sched.wdTable, e.spawnDue = false) : k.watchdogCheck L reads = some k := by
  unfold Kernel.watchdogCheck
  generalize List.range k.sched.wdTable.length = l
  induction l with
  | nil => rfl
  | cons i l ih =>
    have hentry : k.checkEntry L reads i = some k := by
      unfold Kernel.checkEntry
      split
      · rfl
      · rename_i e he
        rw [h e (List.mem_of_getElem? he)]
        exact if_pos (by simp)
    rw [List.foldlM_cons, bind_of_some hentry]
    exact ih

/-- A program is registered with the watchdog as the shell is, and forks. -/
def shellForks : List TableEvent :=
  [.kernel (.register (cstr "/mnt/shell.elf") .system (some 0)), .kernel (.syscall .fork)]

/-- The child has ended, and it has neither parent nor watchdog. -/
def childLost (s : Sched) : Bool :=
  childEnded s && decide ((s.task (.slot 1)).parent = none ∧
    (s.task (.slot 1)).wdManaged = false)

/-- No entry of the watchdog is due, and the child is lost when the scheduler has run. -/
def quietlyLost (s : Sched) : Bool :=
  s.wdTable.all (fun e => !e.spawnDue) && s.schedule.any childLost

/-- **A slot is lost.** The shell ends before its child, then the child ends; after a round of
the idle loop the child's slot is still in use, without parent or watchdog. -/
theorem orphan_stays : ∃ k k₁ k₂ reads, (idleSystem capsLayout).Reachable k ∧
    (idleSystem capsLayout).step k (.check reads) = some k₁ ∧
    (idleSystem capsLayout).step k₁ (.kernel .schedule) = some k₂ ∧
    (k₂.sched.task (.slot 1)).Orphaned := by
  obtain ⟨k₁, hk1, hp⟩ := System.exists_reachable (S := accountedSystem capsLayout)
    (fun k e => e.harmless k) shellForks
    (fun k => k.sched.exitsTo (Sched.exitsTo quietlyLost))
    (fun _ _ => TableEvent.allowed_of_harmless) reachable_program_accounted (by decide +kernel)
  -- the shell ends
  obtain ⟨hcur1, k₂, hk2, hp2⟩ := exists_exit (L := capsLayout) hp
  have hreach2 : (idleSystem capsLayout).Reachable k₂ :=
    hk1.of_restrict.step (e := .kernel (.syscall (.exit 0))) ⟨hcur1, nofun⟩ hk2
  -- and its child
  obtain ⟨hcur2, k3, hk3, hp3⟩ := exists_exit (L := capsLayout) hp2
  have hreach3 : (idleSystem capsLayout).Reachable k3 :=
    hreach2.step (e := .kernel (.syscall (.exit 0))) ⟨hcur2, nofun⟩ hk3
  -- a round of the idle loop
  simp only [quietlyLost, childLost, childEnded, Bool.and_eq_true, decide_eq_true_eq,
    Option.any_eq_true, List.all_eq_true, Bool.not_eq_true'] at hp3
  obtain ⟨hdue, s4, hs4, ⟨huse, hstate⟩, hparent, hmanaged⟩ := hp3
  exact ⟨k3, k3, k3.setSched s4, fun _ => (.missing, false), hreach3,
    watchdogCheck_of_idle hdue, bind_of_some hs4 _, huse, hstate, hparent, hmanaged⟩

end PokuOS
