import PokuOS.SandboxRun
import PokuOS.TaskInv

/-!
# The boundary between tiers

A user task without the capabilities for tiers has no call that changes its tier, its children
inherit it, and memory pressure makes it critical at most. What is left is `sys_exec`, which
gives a task without override the tier that goes with the file's name, whoever asks.

Tasks are followed by their identities: `Family` adds those of all descendants of one task to
the kernel.
-/

namespace PokuOS

open Kernel List

/-! ## Unprivileged tasks -/

/-- The task is below the system tier and has no call to change that. -/
def Task.Unprivileged (task : Task) : Prop :=
  (task.tier = .user ∨ task.tier = .critical) ∧
    task.caps &&& capSetTier = 0 ∧ task.caps &&& capTierRequest = 0

/-- If the task is one of those with the identities `G`, it is unprivileged. -/
def Task.WithinBoundary (G : Set ℕ) (task : Task) : Prop :=
  task.inUse = true → task.pid ∈ G → task.Unprivileged

theorem kept_withinBoundary (G : Set ℕ) : Kept (Task.WithinBoundary G) where
  ending := {
    refl := fun _ h => h
    trans := fun h h' ha => h' (h ha)
    links := fun _ _ _ h => h
    ready := fun _ h => h
    running := fun _ h => h
    timeslice := fun _ _ h => h
    level := fun _ _ h => h
    contTicks := fun _ _ h => h
    woken := fun _ _ h => h
    ended := fun _ _ h => h
    orphan := fun _ h => h }
  quota _ _ _ h := h
  waiting _ h := h
  zero huse := nomatch huse
  kill _ _ h := h
  managed _ h := h
  critical a h := by
    unfold makeCritical
    split
    · exact fun huse hG => ⟨.inr rfl, (h huse hG).2⟩
    · exact h

/-- A gate that needs a capability is closed to a task without it. -/
theorem not_permitted {caps : BitVec 32} {nr : SyscallNr} (hneed : syscallCaps nr ≠ 0)
    (h : caps &&& syscallCaps nr = 0) : permitted caps nr = false := by
  unfold permitted
  rw [h, beq_eq_false_iff_ne]
  exact hneed.symm

/-- **The child of an unprivileged task is unprivileged**, whatever the configuration. -/
theorem Task.Unprivileged.applySandbox {parent child fields : Task} {sb : SandboxConfig}
    (h : parent.Unprivileged) (hfields : applySandbox parent child sb = .ok fields) :
    fields.Unprivileged := by
  obtain ⟨htier, hset, hrequest⟩ := h
  obtain ⟨tier, override, _, hfork, -, rfl⟩ := applySandbox_eq_ok hfields
  have hinherit : tier = parent.tier := by
    unfold forkTier at hfork
    rw [hset] at hfork
    split at hfork
    · exact (congrArg Prod.fst (Except.ok.inj hfork)).symm
    · split at hfork
      · cases hfork
      · rw [if_pos rfl] at hfork
        cases hfork
  have hcaps : ∀ c, parent.caps &&& c = 0 →
      (if sb.capsAllow = 0 then parent.caps else parent.caps &&& sb.capsAllow) &&& c = 0 := by
    intro c hc
    split
    · exact hc
    · rw [BitVec.and_assoc, BitVec.and_comm sb.capsAllow, ← BitVec.and_assoc, hc]
      exact BitVec.zero_and
  exact ⟨hinherit ▸ htier, hcaps _ hset, hcaps _ hrequest⟩

/-! ## Events -/

variable {e : KernelEvent}

section Event

open Sched Kernel

variable {G : Set ℕ} {L : Layout} {k : Kernel}

/-- The file's name carries the system tier. -/
def SystemName (path : CStr) : Prop :=
  baseName path = cstr "shell" ∨ baseName path = cstr "init" ∨ baseName path = cstr "shell.elf"

instance (path : CStr) : Decidable (SystemName path) := inferInstanceAs (Decidable (_ ∨ _ ∨ _))

theorem elfAssignTier_of_not {path : CStr} (h : ¬ SystemName path) : elfAssignTier path = .user :=
  if_neg h

/-- A task with an identity in `G` and without override executes a file with such a name. -/
def KernelEvent.TakesSystemName (G : Set ℕ) (k : Kernel) : KernelEvent → Prop
  | syscall (.exec (some path) _ (.image _ _)) =>
    (k.sched.task k.sched.currentTask).pid ∈ G ∧
      (k.sched.task k.sched.currentTask).tierOverride < 0 ∧
      SystemName (resolvePath (k.sched.task k.sched.currentTask).rootPath path resolvedSize)
  | _ => False

/-- A system call, if it forks only within `G` and `G` holds no other new identity. -/
theorem boundary_syscallHandler (hfits : Fits k.sched)
    (h : k.sched.All (Task.WithinBoundary G)) {call : Call} (hcur : k.sched.currentTask ≠ .idle)
    (himg : (KernelEvent.syscall call).ImagesOk)
    (hname : ¬ (KernelEvent.syscall call).TakesSystemName G k)
    (hnew : k.sched.pidCounter ∈ G → (k.sched.task k.sched.currentTask).pid ∈ G) :
    Post (k.syscallHandler L call) fun k' => k'.sched.All (Task.WithinBoundary G) := by
  have hI := (kept_withinBoundary G).lasting
  have hme := h k.sched.currentTask
  -- who passes the gate for a change of tier is not one of them
  have houtside : ∀ {nr tier}, syscallCaps nr = capSetTier ∨ syscallCaps nr = capTierRequest →
      permitted (k.sched.task k.sched.currentTask).caps nr → Task.WithinBoundary G
        { k.sched.task k.sched.currentTask with tier := tier } := by
    intro nr tier hnr hperm huse hG
    obtain ⟨-, hset, hrequest⟩ := hme huse hG
    have hneed : syscallCaps nr ≠ 0 ∧
        (k.sched.task k.sched.currentTask).caps &&& syscallCaps nr = 0 := by
      rcases hnr with hnr | hnr <;> rw [hnr]
      · exact ⟨by decide, hset⟩
      · exact ⟨by decide, hrequest⟩
    cases (not_permitted hneed.1 hneed.2).symm.trans hperm
  refine closed_syscallHandler hI hfits h hcur (fun _ => (kept_withinBoundary G).endsWell k)
    (fun sb _ huse => ?_) (fun path argv file hcall => ?_) (fun tier _ hperm => ?_)
    (fun tier _ hperm => ?_)
  · refine closed_sysFork hI h (.inr huse) ?_
    intro s1 child fields pd entry stack pages hslot _ hfields _ _
    refine h.create hslot fun _ hG => ?_
    have hpid : fields.pid = k.sched.pidCounter := by
      obtain ⟨_, _, _, -, -, rfl⟩ := applySandbox_eq_ok hfields
      exact congrArg Task.pid (newSlot_of_createTaskSlot hslot).slot
    have hchild : fields.Unprivileged := (hme huse (hnew (hpid ▸ hG))).applySandbox hfields
    exact hchild
  · subst hcall
    refine closed_sysExec hI h (fun mem data hfile => ?_) ?_ ?_
    · subst hfile
      exact himg
    · exact fun s _ _ _ _ _ hs => hs.modify _ fun _ ha => ha
    · intro mem data hfile hover s pd entry stack pages htask hs
      subst hfile
      refine hs.taskSetTier (kept_withinBoundary G) fun huse hG => ?_
      rw [htask] at huse hG ⊢
      have hplain : ¬ SystemName
          (resolvePath (k.sched.task k.sched.currentTask).rootPath path resolvedSize) :=
        fun hsys => hname ⟨hG, hover, hsys⟩
      exact ⟨.inl (elfAssignTier_of_not hplain), (hme huse hG).2⟩
  · exact closed_sysTierRequest h tier
      (h.taskSetTier (kept_withinBoundary G) (houtside (.inr rfl) hperm))
  · exact closed_sysSetTier h tier
      (h.taskSetTier (kept_withinBoundary G) (houtside (.inl rfl) hperm))
      fun s hs => hs.modify _ fun _ ha => ha

/-- **An event keeps the boundary**, if none of them takes a system name. -/
theorem boundary_apply (hfits : Fits k.sched) (h : k.sched.All (Task.WithinBoundary G))
    (hallowed : (kernelSystem L).allowed k e) (himg : e.ImagesOk)
    (hname : ¬ e.TakesSystemName G k)
    (hnew : k.sched.pidCounter ∈ G → e.forks = true ∧ (k.sched.task k.sched.currentTask).pid ∈ G) :
    Post (e.apply L k) fun k' => k'.sched.All (Task.WithinBoundary G) := by
  have hI := (kept_withinBoundary G).lasting
  refine closed_apply hI h (fun _ => (kept_withinBoundary G).endsWell k) ?_ ?_ ?_
  · rintro call rfl
    exact boundary_syscallHandler hfits h hallowed himg hname fun hG => (hnew hG).2
  · rintro path file mapped rfl
    refine closed_spawn hI h (fun mem data hfile => ?_) fun s s1 i _ _ _ hs _ hcount hslot => ?_
    · subst hfile
      exact himg
    · refine hs.create hslot fun _ hG => ?_
      have hpid : (s1.task (.slot i)).pid = s.pidCounter := by
        rw [(newSlot_of_createTaskSlot hslot).slot]
      have hmem : k.sched.pidCounter ∈ G := hcount ▸ hpid ▸ hG
      cases (hnew hmem).1
  · rintro path tier i rfl
    exact h.watchdogRegister (kept_withinBoundary G) _ _ _

end Event

/-! ## Identities -/

/-- No two tasks in use have the same identity. -/
def Sched.Distinct (s : Sched) : Prop :=
  ∀ t t', (s.task t).inUse = true → (s.task t').inUse = true → (s.task t).pid = (s.task t').pid →
    t = t'

variable {P : Limits → Prop}

/-- A task in use after an event was in use with the same identity, or is the new one. -/
theorem Sched.Evolves.inUse_cases {s s' : Sched} (h : Evolves P s s') :
    ∃ i : Fin maxTasks, ∀ t, (s'.task t).inUse = true →
      (s.task t).inUse = true ∧ (s'.task t).pid = (s.task t).pid ∨
        t = .slot i ∧ (s'.task t).pid = s.pidCounter := by
  obtain ⟨i, hi⟩ := h.task
  refine ⟨i, fun t huse => ?_⟩
  rcases hi t with hsame | ⟨-, hgone⟩ | ⟨ht, hnew⟩
  · have hinUse : (s'.task t).inUse = (s.task t).inUse := congrArg Limits.inUse hsame
    exact .inl ⟨hinUse ▸ huse, congrArg Limits.pid hsame⟩
  · cases huse.symm.trans (congrArg Limits.inUse hgone)
  · exact .inr ⟨ht, hnew.pid⟩

theorem Sched.Distinct.evolves {s s' : Sched} (h : s.Distinct) (hfits : Fits s)
    (he : Evolves P s s') : s'.Distinct := by
  obtain ⟨i, hi⟩ := he.inUse_cases
  have hlt : ∀ t, (s.task t).pid ≠ s.pidCounter := fun t => (hfits.pid t).ne
  intro t t' huse huse' hpid
  rcases hi t huse with ⟨hold, hsame⟩ | ⟨ht, hnew⟩ <;>
    rcases hi t' huse' with ⟨hold', hsame'⟩ | ⟨ht', hnew'⟩
  · exact h t t' hold hold' (hsame.symm.trans (hpid.trans hsame'))
  · exact absurd (hsame.symm.trans (hpid.trans hnew')) (hlt t)
  · exact absurd (hsame'.symm.trans (hpid.symm.trans hnew)) (hlt t')
  · exact ht.trans ht'.symm

/-- The kernel runs with images in order. -/
abbrev imagesSystem (L : Layout) : System Kernel KernelEvent :=
  (kernelSystem L).restrict fun _ e => e.ImagesOk

/-- **Identities identify tasks** in every run whose images are in order. -/
theorem distinct_of_reachable {L : Layout} {k : Kernel} (h : (imagesSystem L).Reachable k) :
    k.sched.Fits ∧ k.sched.Distinct := by
  refine System.Reachable.invariant (S := imagesSystem L)
    (I := fun k => k.sched.Fits ∧ k.sched.Distinct) ?_ ?_ h
  · rintro k ⟨pageDirectory, hsched, -⟩
    rw [hsched]
    refine ⟨fits_taskInit _, fun t _ huse => ?_⟩
    cases t <;> exact nomatch huse
  · rintro k e k' ⟨hfits, hdistinct⟩ ⟨hallowed, himg⟩ hstep
    have he := evolves_apply L hfits hallowed himg k' hstep
    exact ⟨hfits.evolves he, hdistinct.evolves hfits he⟩

/-! ## Descendants -/

/-- The kernel, and the identities of a task and its descendants. -/
structure Family where
  /-- the kernel -/
  kernel : Kernel
  /-- the identities -/
  kin : List ℕ

/-- The children that an event gives to members of the family. -/
def newKin (kin : List ℕ) (k k' : Kernel) (e : KernelEvent) : List ℕ :=
  ((newForks k k' e).filter fun r => r.parent.pid ∈ kin).map fun r => r.child.pid

/-- The kernel from a state on in which some task is a user task without the capabilities for
tiers, with a record of its descendants. -/
def familySystem (L : Layout) : System Family KernelEvent where
  init st := (imagesSystem L).Reachable st.kernel ∧ ∃ t,
    (st.kernel.sched.task t).inUse = true ∧ (st.kernel.sched.task t).tier = .user ∧
      (st.kernel.sched.task t).caps &&& capSetTier = 0 ∧
      (st.kernel.sched.task t).caps &&& capTierRequest = 0 ∧
      st.kin = [(st.kernel.sched.task t).pid]
  allowed st e := (kernelSystem L).allowed st.kernel e
  step st e := ((kernelSystem L).step st.kernel e).map fun k =>
    ⟨k, newKin st.kin st.kernel k e ++ st.kin⟩

theorem step_familySystem {L : Layout} {st : Family} {k : Kernel}
    (h : e.apply L st.kernel = some k) :
    (familySystem L).step st e = some ⟨k, newKin st.kin st.kernel k e ++ st.kin⟩ :=
  congrArg (Option.map fun k => Family.mk k (newKin st.kin st.kernel k e ++ st.kin)) h

/-- The same with images in order, and without system names for members of the family. -/
def boundedSystem (L : Layout) : System Family KernelEvent :=
  (familySystem L).restrict fun st e =>
    e.ImagesOk ∧ ¬ e.TakesSystemName {pid | pid ∈ st.kin} st.kernel

/-- The invariant: members of the family are unprivileged. -/
structure Bounded (st : Family) : Prop where
  /-- the process table -/
  fits : st.kernel.sched.Fits
  /-- the identities have been given -/
  given : ∀ pid ∈ st.kin, pid < st.kernel.sched.pidCounter
  /-- the members -/
  within : st.kernel.sched.All (Task.WithinBoundary {pid | pid ∈ st.kin})

theorem Bounded.init {L : Layout} {st : Family} (h : (familySystem L).init st) : Bounded st := by
  obtain ⟨hreach, t, huse, htier, hset, hrequest, hkin⟩ := h
  obtain ⟨hfits, hdistinct⟩ := distinct_of_reachable hreach
  refine ⟨hfits, fun pid hpid => ?_, fun t' huse' hpid => ?_⟩
  · rw [hkin, mem_singleton] at hpid
    exact hpid ▸ hfits.pid t
  · rw [Set.mem_ofPred_eq, hkin, mem_singleton] at hpid
    obtain rfl := hdistinct t' t huse' huse hpid
    exact ⟨.inl htier, hset, hrequest⟩

/-- **One event keeps the family below the boundary.** -/
theorem Bounded.step {L : Layout} {st st' : Family} (h : Bounded st)
    (hallowed : (kernelSystem L).allowed st.kernel e) (himg : e.ImagesOk)
    (hname : ¬ e.TakesSystemName {pid | pid ∈ st.kin} st.kernel)
    (hstep : (familySystem L).step st e = some st') : Bounded st' := by
  obtain ⟨k, hk, rfl⟩ := Option.map_eq_some_iff.mp hstep
  have he := evolves_apply L h.fits hallowed himg k hk
  have hfits := h.fits.evolves he
  -- a fork of a member makes the next identity one of them
  set G : Set ℕ := {pid | pid ∈ st.kin ∨ pid = st.kernel.sched.pidCounter ∧ e.forks = true ∧
    (st.kernel.sched.task st.kernel.sched.currentTask).pid ∈ st.kin} with hG
  have hold : ∀ t, (st.kernel.sched.task t).pid ∈ G ↔ (st.kernel.sched.task t).pid ∈ st.kin :=
    fun t => ⟨fun ht => ht.resolve_right fun hnew => (h.fits.pid t).ne hnew.1, .inl⟩
  have hall : k.sched.All (Task.WithinBoundary G) := by
    refine boundary_apply h.fits (fun t huse ht => h.within t huse ((hold t).mp ht)) hallowed himg
      (fun htakes => hname ?_) (fun hnext => ?_) k hk
    · unfold KernelEvent.TakesSystemName at htakes ⊢
      split at htakes
      · exact ⟨(hold _).mp htakes.1, htakes.2⟩
      · exact htakes
    · rcases hnext with hmem | ⟨-, hforks, hcur⟩
      · exact absurd (h.given _ hmem) (lt_irrefl _)
      · exact ⟨hforks, .inl hcur⟩
  have hkin : ∀ pid ∈ newKin st.kin st.kernel k e ++ st.kin,
      pid ∈ G ∧ pid < k.sched.pidCounter := by
    intro pid hpid
    rcases mem_append.mp hpid with hpid | hpid
    · obtain ⟨r, hr, rfl⟩ := mem_map.mp hpid
      obtain ⟨hr, hparent⟩ := mem_filter.mp hr
      obtain ⟨hforks, hp, i, hchild, hnext⟩ := mem_newForks hr
      refine ⟨.inr ⟨hnext, hforks, ?_⟩, hchild ▸ hfits.pid _⟩
      rw [hp] at hparent
      exact of_decide_eq_true hparent
    · exact ⟨.inl hpid, (h.given pid hpid).trans_le he.pidCounter⟩
  exact ⟨hfits, fun pid hpid => (hkin pid hpid).2,
    fun t huse ht => hall t huse (hkin _ ht).1⟩

/-- **No task of the family gets above the user tier**, in every run in which images are in
order and no member of the family without override executes a file with a system name. -/
theorem tier_boundary (L : Layout) {st : Family} (h : (boundedSystem L).Reachable st) :
    ∀ t, (st.kernel.sched.task t).inUse = true → (st.kernel.sched.task t).pid ∈ st.kin →
      (st.kernel.sched.task t).tier ≠ .kernel ∧ (st.kernel.sched.task t).tier ≠ .system := by
  have hb : Bounded st := by
    refine System.Reachable.invariant (S := boundedSystem L) (I := Bounded)
      (fun _ => Bounded.init) ?_ h
    rintro st e st' hb ⟨hallowed, himg, hname⟩ hstep
    exact hb.step hallowed himg hname hstep
  intro t huse hpid
  rcases (hb.within t huse hpid).1 with htier | htier <;> rw [htier] <;> exact ⟨nofun, nofun⟩

/-! ## Two runs -/

/-- The program that runs in `programState`, and no descendants yet. -/
def programFamily : Family := ⟨programState.kernel, [1]⟩

theorem reachable_programImages : (imagesSystem capsLayout).Reachable programState.kernel := by
  refine System.reachable_run (S := imagesSystem capsLayout) (.init ⟨300, rfl, rfl⟩) ?_
    ((System.run_restrict _ _).trans run_startProgram_kernel)
  exact ⟨⟨trivial, imageOk_program⟩, fun _ _ => ⟨⟨trivial, trivial⟩, fun _ _ => trivial⟩⟩

theorem init_programFamily : (familySystem capsLayout).init programFamily := by
  refine ⟨reachable_programImages, .slot 0, ?_⟩
  decide +kernel

theorem allowed_programFamily (call : Call) :
    (familySystem capsLayout).allowed programFamily (.syscall call) := by
  change programState.kernel.sched.currentTask ≠ .idle
  rw [currentTask_programState]
  nofun

/-- The program forks, and its child is a member of the family and a user task. -/
theorem tier_boundary_fork : ∃ st, (boundedSystem capsLayout).Reachable st ∧ st.kin = [2, 1] ∧
    (st.kernel.sched.task (.slot 1)).inUse = true ∧ (st.kernel.sched.task (.slot 1)).pid = 2 ∧
    (st.kernel.sched.task (.slot 1)).tier ≠ .kernel ∧
    (st.kernel.sched.task (.slot 1)).tier ≠ .system := by
  obtain ⟨st, hst, hkin, huse, hpid⟩ :
      ∃ st ∈ (boundedSystem capsLayout).step programFamily (.syscall .fork), st.kin = [2, 1] ∧
        (st.kernel.sched.task (.slot 1)).inUse ∧ (st.kernel.sched.task (.slot 1)).pid = 2 := by
    decide +kernel
  have hinit : (boundedSystem capsLayout).Reachable programFamily := .init init_programFamily
  have hreach : (boundedSystem capsLayout).Reachable st :=
    hinit.step (e := .syscall .fork) ⟨allowed_programFamily _, trivial, id⟩ hst
  refine ⟨st, hreach, hkin, huse, hpid, tier_boundary capsLayout hreach (.slot 1) huse ?_⟩
  rw [hkin, hpid]
  decide

/-- The program executes the shell. -/
def execShell : KernelEvent :=
  .syscall (.exec (some (cstr "/mnt/shell.elf")) [] (imageFile (oneSegment 0x01000000 0)))

/-- **A user task makes itself a system task**: it executes a file with the shell's name. -/
theorem tier_boundary_exec : ∃ st st', (familySystem capsLayout).Reachable st ∧
    (familySystem capsLayout).allowed st execShell ∧
    (familySystem capsLayout).step st execShell = some st' ∧
    (st.kernel.sched.task (.slot 0)).tier = .user ∧
    (st.kernel.sched.task (.slot 0)).caps = capUserDefault ∧
    (st'.kernel.sched.task (.slot 0)).pid ∈ st'.kin ∧
    (st'.kernel.sched.task (.slot 0)).tier = .system := by
  obtain ⟨⟨pd, entry, k1⟩, hload, hready, hover, hstate, htier, hpid⟩ :
      ∃ r ∈ programState.kernel.execLoaded capsLayout (imageMem (oneSegment 0x01000000 0))
        0xD0000008, stackReady (r.2.2.sched.task (.slot 0)).cr3 r.1 r.2.2.vm ∧
          (r.2.2.sched.task (.slot 0)).tierOverride = -1 ∧
          (r.2.2.sched.task (.slot 0)).state = .running ∧
          (r.2.2.sched.task (.slot 0)).tier = .user ∧ (r.2.2.sched.task (.slot 0)).pid = 1 := by
    decide +kernel
  have hcur := currentTask_programState
  obtain ⟨vm, pages, hexec⟩ := sysExec_loaded hload (cstr "/mnt/shell.elf") []
    (by rw [hcur]; exact hready)
  have hroot : (programState.kernel.sched.task (.slot 0)).rootPath = [] := by decide +kernel
  have hname : elfAssignTier (resolvePath [] (cstr "/mnt/shell.elf") resolvedSize) =
      .system := by decide +kernel
  set s1 := k1.sched.modify (.slot 0) fun task =>
    { task with cr3 := pd, userEntry := entry.getD 0, userStack := buildArgStack [],
                map := false, pagesCharged := pages } with hs1
  have htask : s1.task (.slot 0) = { k1.sched.task (.slot 0) with
      cr3 := pd, userEntry := entry.getD 0, userStack := buildArgStack [],
      map := false, pagesCharged := pages } := by
    rw [hs1, Sched.task_modify, if_pos rfl]
  rw [hcur, hroot, execTier_of_running (by rw [htask, hover]; decide)
    (by rw [htask]; exact hstate) (by rw [hname, htask, htier]; nofun), hname] at hexec
  obtain ⟨k2, hexec, htask2⟩ : ∃ k2, programState.kernel.sysExec capsLayout
      (cstr "/mnt/shell.elf") [] (imageFile (oneSegment 0x01000000 0)) = some (0, k2) ∧
      k2.sched.task (.slot 0) = { s1.task (.slot 0) with tier := .system } := by
    refine ⟨_, hexec, ?_⟩
    rw [task_loadCr3, Sched.task_modify, if_pos rfl]
  have happly : execShell.apply capsLayout programState.kernel = some k2 :=
    apply_exec (by decide +kernel) hexec
  refine ⟨programFamily, _, .init init_programFamily, allowed_programFamily _,
    step_familySystem happly, by decide +kernel, by decide +kernel, mem_append_right _ ?_,
      by rw [htask2]⟩
  have hpid2 : (k2.sched.task (.slot 0)).pid = 1 := by
    rw [htask2, htask]
    exact hpid
  rw [hpid2]
  exact mem_singleton.mpr rfl

/-! ## Limits -/

/-- **A task keeps its limits as long as it lives.** Whatever system calls and interrupts come in
between, a task whose identity was given before a run is after it still in its slot, with the same
capabilities, limits and root. -/
theorem limits_kept {L : Layout} {k k' : Kernel} {es : List KernelEvent} {t : TaskPtr}
    (h : (imagesSystem L).Reachable k) (hallowed : (imagesSystem L).AllowedRun k es)
    (hrun : (imagesSystem L).run k es = some k') (hpos : 0 < (k'.sched.task t).pid)
    (hgiven : (k'.sched.task t).pid < k.sched.pidCounter) :
    (k'.sched.task t).limits = (k.sched.task t).limits := by
  have hfits := (distinct_of_reachable h).1
  clear h
  -- the last event leaves the slot alone if those before it do
  induction es generalizing k with
  | nil =>
    cases hrun
    rfl
  | cons e es ih =>
    obtain ⟨k1, hstep, hrun⟩ := Option.bind_eq_some_iff.mp hrun
    obtain ⟨⟨he, himg⟩, hrest⟩ := hallowed
    have hev := evolves_apply L hfits he himg k1 hstep
    have hlast := ih (hrest k1 hstep) hrun (hgiven.trans_le hev.pidCounter) (hfits.evolves hev)
    exact hlast.trans (hev.limits_eq hpos hgiven (congrArg Limits.pid hlast.symm))

/-- The program forks, and keeps its own. -/
theorem limits_kept_fork : ∃ k',
    (imagesSystem capsLayout).run programState.kernel [.syscall .fork] = some k' ∧
    (k'.sched.task (.slot 0)).limits = (programState.kernel.sched.task (.slot 0)).limits := by
  obtain ⟨k', hrun, hpos, hgiven⟩ :
      ∃ k' ∈ (imagesSystem capsLayout).run programState.kernel [.syscall .fork],
        0 < (k'.sched.task (.slot 0)).pid ∧
        (k'.sched.task (.slot 0)).pid < programState.kernel.sched.pidCounter := by
    decide +kernel
  refine ⟨k', hrun, limits_kept reachable_programImages ?_ hrun hpos hgiven⟩
  exact ⟨⟨allowed_programFamily .fork, trivial⟩, fun _ _ => trivial⟩

end PokuOS
