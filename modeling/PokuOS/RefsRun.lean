import PokuOS.Refs

/-!
# References along runs

The kernel with the work of its idle loop, `watchdog_check` and `task_reap_orphans`. In every run
whose images are in order, and in which `watchdog_register` is called with a task that has neither
parent nor entry, all references into the process table are valid, and no slot is freed but that
of a task which has ended, or one that was never put into a queue.
-/

namespace PokuOS

/-! ## Events -/

namespace Kernel

open Sched

variable {L : Layout} {k : Kernel} {s0 : Sched}

/-- `spawn_user_process` starts a task without parent and entry, or none. -/
theorem started_spawnUserProcess (h : RefsOk k.sched) {path : CStr} {file : FileRead}
    {mapped : Bool} (hfile : ∀ mem data, file = .image mem data → ImageOk mem data) :
    Post (k.spawnUserProcess L path file mapped) fun r =>
      (r.1 = none → RefsOk r.2.sched) ∧ ∀ i, r.1 = some i → Started i r.2.sched := by
  refine closed_spawnUserProcess lasting_refs relinking_started
    (fun pd hs => hs.held (fun _ => charging_held.refl _) rfl) h hfile ?_
  intro s s1 i pd entry pages hs _ _ hslot
  have hnew := newSlot_of_createTaskSlot hslot
  refine ⟨hs.create hslot nofun, ?_, ?_, ?_⟩
  · rw [task_modify, if_pos rfl, hnew.slot]
    rfl
  · rw [task_modify, if_pos rfl]
    rfl
  · have htable : s1.wdTable = s.wdTable := wdTable_of_createTaskSlot hslot
    change ∀ e ∈ s1.wdTable, _
    rw [htable]
    exact hs.notin_of_free hnew.free

theorem refs_checkEntry (h : RefsOk k.sched) {reads : ℕ → FileRead × Bool} (i : ℕ)
    (hfile : ∀ mem data, (reads i).1 = .image mem data → ImageOk mem data) :
    Post (k.checkEntry L reads i) fun k' => RefsOk k'.sched := by
  unfold checkEntry
  split
  · exact .some h
  split
  · exact .some h
  have hcleared : RefsOk (CheckState.modifyEntry k.sched i fun e => { e with spawnDue := false }) :=
    .setTable (h.modifyAt i fun _ _ hactive ht => .inl ⟨hactive, ht⟩)
  refine (started_spawnUserProcess (k := { k with sched := _ }) hcleared hfile).bind ?_
  rintro ⟨t, k1⟩ ⟨hnone, hsome⟩
  cases t with
  | none => exact .some (.setTable ((hnone rfl).modifyAt i nofun))
  | some t => exact .some ((hsome t rfl).store i)

/-- `sys_fork` has put no task into a queue, and no slot is in use that was not. -/
structure Unqueued (s s' : Sched) : Prop where
  rqHead : s'.rqHead = s.rqHead
  rqTail : s'.rqTail = s.rqTail
  /-- the slots in use, and their links -/
  task : ∀ t, (s'.task t).inUse = (s.task t).inUse ∧
    ((s.task t).inUse = true → (s'.task t).next = (s.task t).next)

theorem unqueued_handlePressure (h : Unqueued s0 k.sched) : Unqueued s0 k.handlePressure.sched := by
  unfold handlePressure
  split
  · refine ⟨h.rqHead, h.rqTail, fun t => ?_⟩
    have hsame : ((k.sched.modify k.sched.currentTask makeCritical).task t).inUse =
          (k.sched.task t).inUse ∧
        ((k.sched.modify k.sched.currentTask makeCritical).task t).next =
          (k.sched.task t).next := by
      rw [task_modify]
      split
      · rename_i ht
        subst ht
        unfold makeCritical
        split <;> exact ⟨rfl, rfl⟩
      · exact ⟨rfl, rfl⟩
    exact ⟨hsame.1.trans (h.task t).1, fun huse => hsame.2.trans ((h.task t).2 huse)⟩
  · exact h

/-- A slot is taken, filled and freed. -/
theorem unqueued_giveUp {s s1 : Sched} {i : Fin maxTasks}
    (hslot : s.createTaskSlot = (some i, s1)) (f : Task → Task) :
    Unqueued s ((s1.modify (.slot i) f).freeTaskSlot (.slot i)) := by
  have hnew := newSlot_of_createTaskSlot hslot
  have hqueues : s1.rqHead = s.rqHead ∧ s1.rqTail = s.rqTail := by
    unfold createTaskSlot at hslot
    split at hslot
    · cases (Prod.mk.inj hslot).1
    · rw [← (Prod.mk.inj hslot).2]
      exact ⟨rfl, rfl⟩
  refine ⟨hqueues.1, hqueues.2, fun t => ?_⟩
  rw [freeTaskSlot_modify, task_modify]
  split
  · rename_i ht
    subst ht
    rw [hnew.free]
    exact ⟨rfl, nofun⟩
  · rename_i ht
    rw [hnew.others t ht]
    exact ⟨rfl, fun _ => rfl⟩

variable {child : Fin maxTasks}

theorem unqueued_forkFail (h : Unqueued s0 (k.sched.freeTaskSlot (.slot child))) (code : ℤ) :
    Unqueued s0 (k.forkFail child code).2.sched :=
  unqueued_handlePressure (k := { k with sched := k.sched.freeTaskSlot (.slot child) }) h

theorem unqueued_forkCopy {pages : List (ℕ × Pte)}
    (h : Unqueued s0 (k.sched.freeTaskSlot (.slot child))) :
    Post (k.forkCopy child pages) fun r => r.1 < 0 → Unqueued s0 r.2.sched := by
  refine forkCopy_rule (makes_const trivial _) (fun _ _ _ _ _ => trivial)
    (fun vm _ _ => unqueued_forkFail (k := { k with vm := vm }) h _)
    (fun pd vm _ _ => unqueued_forkFail ?_ _) fun pid pd vm s _ _ hneg => ?_
  · exact ⟨h.rqHead, h.rqTail, h.task⟩
  · -- the result is an identity
    exact absurd hneg (Int.not_lt.mpr (Int.natCast_nonneg _))

/-- **A fork that fails has put nothing into a queue.** -/
theorem unqueued_sysFork (k : Kernel) (sb : SandboxConfig) :
    Post (k.sysFork sb) fun r => r.1 < 0 → Unqueued k.sched r.2.sched := by
  exact sysFork_rule (fun _ => ⟨rfl, rfl, fun _ => ⟨rfl, fun _ => rfl⟩⟩)
    (fun child s f code hslot _ => unqueued_forkFail (unqueued_giveUp hslot f) code)
    fun child s fields hslot _ _ _ => unqueued_forkCopy (unqueued_giveUp hslot _)

end Kernel

/-! ## Runs -/

/-- Images are in order, and `watchdog_register` is called with a task that has neither parent
nor entry. -/
def TableEvent.Orderly (k : Kernel) : TableEvent → Prop
  | .kernel (.register _ _ i) => k.sched.MayRegister i
  | .kernel e => e.ImagesOk
  | .check reads => ∀ i mem data, (reads i).1 = .image mem data → ImageOk mem data
  | .reap => True

/-- The runs in which every event is orderly. -/
abbrev refsSystem (L : Layout) : System Kernel TableEvent :=
  (tableSystem L).restrict fun k e => e.Orderly k

namespace Kernel

open Sched

variable {L : Layout} {k : Kernel}

theorem orderly_imagesOk {e : TableEvent} (h : e.Orderly k) : e.ImagesOk := by
  cases e with
  | kernel e => cases e <;> first | exact h | trivial
  | check reads => exact h
  | reap => trivial

/-- **An orderly event.** -/
theorem refs_step (hfits : Fits k.sched) (hrefs : RefsOk k.sched) (halive : Alive k.sched)
    {e : TableEvent} (hallowed : (tableSystem L).allowed k e) (horderly : e.Orderly k) :
    Post ((tableSystem L).step k e) fun k' => Fits k'.sched ∧
      (RefsOk k'.sched ∧ Alive k'.sched) ∧ k.sched.FreesEnded k'.sched := by
  have himg := orderly_imagesOk horderly
  refine (fits_step hfits hallowed himg).and (.and (.and ?_ (alive_step hfits halive hallowed himg))
    ((enduring_frees k.sched).step hfits (fun t _ huse hstate => ⟨huse, rfl, hstate⟩) hallowed himg
      fun _ s code _ hs => ?_))
  · cases e with
    | kernel e =>
      refine lasting_refs.apply lenient_held hfits hrefs hallowed himg
        (fun _ s code _ hs => refs_exitCurrent hs code) (fun {s s1 i task} hs hnew => ?_) ?_
      · refine hs.create hnew.slot fun p hp => ?_
        -- the parent is the running task
        obtain ⟨rfl, huse, hforks⟩ := hnew.parent p hp
        rw [hnew.same]
        exact ⟨huse, halive.resolve_left (ne_idle_of_forks (L := L) hallowed hforks)⟩
      · rintro path tier i rfl
        exact hrefs.watchdogRegister path tier horderly
    | check reads => exact Post.foldlM (fun k1 i h1 => refs_checkEntry h1 i (horderly i)) _ hrefs
    | reap => exact .some hrefs.taskReapOrphans
  · exact (via_exitCurrent ending_profile.toClosing s code).mono fun _ =>
      ((enduring_frees k.sched).enter hs).via

theorem refs_of_reachable (h : (refsSystem L).Reachable k) :
    Fits k.sched ∧ RefsOk k.sched ∧ Alive k.sched := by
  refine System.Reachable.invariant (S := refsSystem L)
    (I := fun k => Fits k.sched ∧ RefsOk k.sched ∧ Alive k.sched) ?_ ?_ h
  · rintro k ⟨pageDirectory, hsched, -⟩
    rw [hsched]
    refine ⟨fits_taskInit _, ⟨fun t p huse _ => ?_, nofun, .nil, rfl⟩, .inl rfl⟩
    cases t <;> exact nomatch huse
  · rintro k e k' ⟨hfits, hrefs, halive⟩ ⟨hallowed, horderly⟩ hstep
    obtain ⟨hfits', hrefs', -⟩ := refs_step hfits hrefs halive hallowed horderly k' hstep
    exact ⟨hfits', hrefs'⟩

end Kernel

/-- **References stay valid.** In every state of an orderly run, parents are in use and have not
ended, and the tasks of active entries are in use and managed; an orderly event frees the slot of
a task only if it has ended; and a fork that fails gives its slot back before any queue has it. -/
theorem references_valid (L : Layout) {k : Kernel} (h : (refsSystem L).Reachable k) :
    k.sched.ParentsOk ∧ k.sched.EntriesOk ∧
      (∀ e k', (refsSystem L).allowed k e → (refsSystem L).step k e = some k' →
        k.sched.FreesEnded k'.sched) ∧
      ∀ sb r k', k.sysFork sb = some (r, k') → r < 0 → Kernel.Unqueued k.sched k'.sched := by
  obtain ⟨hfits, hrefs, halive⟩ := Kernel.refs_of_reachable h
  refine ⟨fun t p huse hp => ?_, fun e he hactive t ht => ?_, fun e k' hallowed hstep => ?_,
    fun sb r k' hfork => Kernel.unqueued_sysFork k sb _ hfork⟩
  · obtain ⟨hpuse, hpstate⟩ := hrefs.parent t p huse hp
    exact ⟨hrefs.parent_ne_idle hpuse, hpuse, hpstate⟩
  · have howned := hrefs.entry e he hactive t ht
    exact ⟨hrefs.parent_ne_idle howned.inUse, howned.inUse, howned.managed⟩
  · exact (Kernel.refs_step hfits hrefs halive hallowed.1 hallowed.2 k' hstep).2.2

theorem reachable_program_table : (refsSystem capsLayout).Reachable programState.kernel := by
  have hrun : (refsSystem capsLayout).run bootState.kernel (startProgram.map .kernel) =
      some programState.kernel :=
    (System.run_restrict _ _).trans ((run_tableSystem _ _ _).trans run_startProgram_kernel)
  refine System.reachable_run (S := refsSystem capsLayout) (.init ⟨300, rfl, rfl⟩) ?_ hrun
  exact ⟨⟨trivial, imageOk_program⟩, fun _ _ => ⟨⟨trivial, trivial⟩, fun _ _ => trivial⟩⟩

/-- A program forks: its child has a parent that is there. -/
theorem references_valid_child :
    ∃ k, (refsSystem capsLayout).Reachable k ∧ (k.sched.task (.slot 1)).inUse = true ∧
      (k.sched.task (.slot 1)).parent = some (.slot 0) ∧
      (k.sched.task (.slot 0)).inUse = true ∧ (k.sched.task (.slot 0)).state ≠ .exited := by
  obtain ⟨k, hk, hp⟩ :
      ∃ k ∈ (refsSystem capsLayout).step programState.kernel (.kernel (.syscall .fork)),
        (k.sched.task (.slot 1)).inUse ∧ (k.sched.task (.slot 1)).parent = some (.slot 0) := by
    decide +kernel
  have hcur : programState.kernel.sched.currentTask ≠ .idle := by
    rw [currentTask_programState]
    nofun
  have hreach : (refsSystem capsLayout).Reachable k :=
    reachable_program_table.step (e := .kernel (.syscall .fork)) ⟨hcur, trivial⟩ hk
  exact ⟨k, hreach, hp.1, hp.2, ((references_valid capsLayout hreach).1 _ _ hp.1 hp.2).2⟩

/-- A program forks, its child is registered, and it waits for it. -/
def registerChild : List TableEvent :=
  [.kernel (.syscall .fork), .kernel (.register (cstr "/mnt/prog.elf") .user (some 1)),
    .kernel (.syscall (.wait (-1)))]

/-- The event is a registration, or a call of a task that runs. -/
def TableEvent.callsOrRegisters (k : Kernel) : TableEvent → Bool
  | .kernel (.syscall _) => decide (k.sched.currentTask ≠ .idle)
  | .kernel (.register _ _ _) => true
  | _ => false

/-- The running task may call `sys_wait`, which leaves an active entry pointing to a free slot. -/
def waitLeavesStale (s : Sched) : Bool :=
  decide (s.currentTask ≠ .idle) && permitted (s.task s.currentTask).caps .wait &&
    (s.waitRound (-1)).any fun r =>
      r.2.wdTable.any (fun e => e.active && e.task == some (.slot 1)) &&
        !(r.2.task (.slot 1)).inUse

/-- **A registered child leaves a stale pointer**: it ends, its parent's `sys_wait` frees the slot,
and the watchdog's entry still points to it. -/
theorem references_stale :
    ∃ k, (tableSystem capsLayout).Reachable k ∧ ∃ e ∈ k.sched.wdTable,
      e.active = true ∧ e.task = some (.slot 1) ∧ (k.sched.task (.slot 1)).inUse = false := by
  obtain ⟨k1, hk1, hp⟩ := System.exists_reachable (S := tableSystem capsLayout)
    (fun k e => e.callsOrRegisters k) registerChild
    (fun k => k.sched.currentTask ≠ .idle ∧
      permitted (k.sched.task k.sched.currentTask).caps .exit ∧
      ((k.sched.exitCurrent 0).bind Sched.schedule).any waitLeavesStale)
    (fun k e he => by
      unfold TableEvent.callsOrRegisters at he
      split at he
      · exact of_decide_eq_true (p := k.sched.currentTask ≠ .idle) he
      · trivial
      · cases he) reachable_program_table.of_restrict (by decide +kernel)
  simp only [waitLeavesStale, Bool.and_eq_true, Option.any_eq_true, decide_eq_true_eq] at hp
  obtain ⟨hcur1, hexit, s2, hs2, ⟨hcur2, hwait⟩, ⟨r, s3⟩, hs3, hentry, hfree⟩ := hp
  -- the child ends
  obtain ⟨k2, hk2, hsched2⟩ : ∃ k2, k1.taskExit 0 = some k2 ∧ k2.sched = s2 :=
    Option.map_eq_some_iff.mp ((k1.sched_taskExit 0).trans hs2)
  have hreach2 : (tableSystem capsLayout).Reachable k2 :=
    hk1.step (e := .kernel (.syscall (.exit 0))) hcur1 ((if_pos hexit).trans hk2)
  subst hsched2
  -- and its parent waits
  have hsched3 := Sched.sched_sysWait k2 (-1)
  rw [hs3] at hsched3
  obtain ⟨k3, hk3, rfl⟩ := Option.map_eq_some_iff.mp hsched3
  obtain ⟨e, he, hactive⟩ := List.any_eq_true.mp hentry
  rw [Bool.and_eq_true, beq_iff_eq] at hactive
  refine ⟨k3, hreach2.step (e := .kernel (.syscall (.wait (-1)))) hcur2 ((if_pos hwait).trans hk3),
    e, he, hactive.1, hactive.2, ?_⟩
  simpa using hfree

end PokuOS
