import PokuOS.TableInv

/-!
# Fork trees

Runs of the kernel with a record of every fork: the limits of the parent when it forked and of
the child it got. `Descends` follows these records over any number of generations, and in
every run whose images are in order a descendant is `Restricted` against each ancestor.

An image that is not in order can be loaded over the process table (`sandbox_escape`).
-/

namespace PokuOS

open List

/-! ## Runs -/

/-- A fork that gave a child. -/
structure Fork where
  /-- the parent's limits at the time -/
  parent : Limits
  /-- the child's -/
  child : Limits
  deriving DecidableEq

/-- The kernel, and all forks so far. -/
structure Traced where
  /-- the kernel -/
  kernel : Kernel
  /-- the forks, the last first -/
  forks : List Fork

/-- The forks of one event: the tasks in use after it that have the identity that was next. -/
def newForks (k k' : Kernel) (e : KernelEvent) : List Fork :=
  if e.forks then
    ((finRange maxTasks).filter fun i =>
      (k'.sched.task (.slot i)).inUse && (k'.sched.task (.slot i)).pid == k.sched.pidCounter).map
      fun i => ⟨(k.sched.task k.sched.currentTask).limits, (k'.sched.task (.slot i)).limits⟩
  else []

/-- `kernelSystem` with the record. -/
def tracedSystem (L : Layout) : System Traced KernelEvent where
  init st := (kernelSystem L).init st.kernel ∧ st.forks = []
  allowed st e := (kernelSystem L).allowed st.kernel e
  step st e := ((kernelSystem L).step st.kernel e).map fun k =>
    ⟨k, newForks st.kernel k e ++ st.forks⟩

theorem step_tracedSystem {L : Layout} {st : Traced} {e : KernelEvent} {k : Kernel}
    (h : e.apply L st.kernel = some k) :
    (tracedSystem L).step st e = some ⟨k, newForks st.kernel k e ++ st.forks⟩ :=
  congrArg (Option.map fun k => Traced.mk k (newForks st.kernel k e ++ st.forks)) h

/-- The record does not affect the run. -/
theorem run_tracedSystem (L : Layout) (es : List KernelEvent) (st : Traced) :
    ((tracedSystem L).run st es).map Traced.kernel = (kernelSystem L).run st.kernel es := by
  induction es generalizing st with
  | nil => rfl
  | cons e es ih =>
    unfold System.run
    cases h : e.apply L st.kernel with
    | none =>
      rw [show (tracedSystem L).step st e = none from congrArg (Option.map _) h,
        show (kernelSystem L).step st.kernel e = none from h]
      rfl
    | some k =>
      rw [step_tracedSystem h, show (kernelSystem L).step st.kernel e = some k from h]
      exact ih _

/-- `d` was forked, in one or more steps, from a task that had the limits `a` when it forked. -/
inductive Descends (forks : List Fork) (a : Limits) : Limits → Prop where
  /-- a child -/
  | child {r : Fork} : r ∈ forks → r.parent = a → Descends forks a r.child
  /-- a child of a descendant -/
  | step {b : Limits} {r : Fork} :
    Descends forks a b → r ∈ forks → r.parent.pid = b.pid → Descends forks a r.child

/-! ## One event -/

section Event

open Sched Kernel

variable {k : Kernel}

theorem fits_taskInit (pageDirectory : ℕ) : Fits (taskInit pageDirectory) := by
  refine ⟨fun t hidle _ => ?_, fun t => ?_⟩
  · cases t with
    | idle => exact absurd rfl hidle
    | slot i => rfl
  · cases t <;> exact Nat.one_pos

/-- The limits of a task are written when it is created and when it is gone. -/
theorem lenient_limits : Lenient fun a b => b.limits = a.limits where
  refl _ := rfl
  trans h h' := h'.trans h
  links _ _ _ := rfl
  ready _ := rfl
  running _ := rfl
  timeslice _ _ := rfl
  level _ _ := rfl
  contTicks _ _ := rfl
  quota _ _ _ := rfl
  waiting _ := rfl
  kill _ _ := rfl
  critical a := by
    unfold makeCritical
    split <;> rfl
  managed _ := rfl
  tier _ _ := rfl
  override _ _ := rfl
  program _ _ _ _ _ := rfl

theorem lasting_evolves (P : Limits → Prop) (s0 : Sched) :
    Lasting (fun a b => b.limits = a.limits) (Evolves P s0) (Evolves P s0) (Evolves P s0) where
  allows := lenient_limits.toHandling
  held hs h := h.andThen ⟨⟨0, fun t => .inl (hs.task t)⟩, hs.pidCounter.ge⟩
  enter h := h
  leave h := h
  schedule s h := (keeps_schedule s).mono fun _ hs => h.andThen hs.evolves
  watchdogTick s h := h.andThen (keeps_watchdogTick s).evolves
  reapChild s i _ h := h.andThen (keeps_freeTaskSlot s (.slot i)).evolves
  giveUp _ _ _ f hslot h := h.andThen (.create_free (newSlot_of_createTaskSlot hslot) f)

/-- **What an event with images in order does to limits.** -/
theorem evolves_apply (L : Layout) (h : Fits k.sched) {e : KernelEvent}
    (hallowed : (kernelSystem L).allowed k e) (himg : e.ImagesOk) :
    Post (e.apply L k) fun k' => Evolves (e.Admits k) k.sched k'.sched := by
  refine (lasting_evolves (e.Admits k) k.sched).apply lenient_limits h (.refl _) hallowed himg
    (fun _ s code _ hs => ?_) (fun _ hnew => ?_) fun path tier i _ => ?_
  · exact (keeps_exitCurrent s code).mono fun _ hk => hs.andThen hk.evolves
  · refine .from_same hnew.same hnew.pidCounter ?_
    exact .create (newSlot_of_createTaskSlot hnew.slot) hnew.pid hnew.inUse hnew.limits
  · exact (keeps_watchdogRegister k.sched path tier _).evolves

end Event

/-! ## Whole runs -/

/-- The record and the process table agree. -/
structure Lineage (st : Traced) : Prop where
  /-- the process table -/
  fits : st.kernel.sched.Fits
  /-- recorded parents have been given their identity -/
  parent : ∀ r ∈ st.forks, r.parent.pid < st.kernel.sched.pidCounter
  /-- so have recorded children -/
  child : ∀ r ∈ st.forks, 0 < r.child.pid ∧ r.child.pid < st.kernel.sched.pidCounter
  /-- each fork restricts -/
  restricted : ∀ r ∈ st.forks, Restricted r.parent r.child
  /-- a child that is still there has the limits it was created with -/
  alive : ∀ r ∈ st.forks, ∀ t, (st.kernel.sched.task t).limits.pid = r.child.pid →
    (st.kernel.sched.task t).limits = r.child
  /-- and had them when it forked itself -/
  forked : ∀ r ∈ st.forks, ∀ r' ∈ st.forks, r'.parent.pid = r.child.pid → r'.parent = r.child

/-- A recorded fork gave a new task. -/
theorem mem_newForks {k k' : Kernel} {e : KernelEvent} {r : Fork} (hr : r ∈ newForks k k' e) :
    e.forks = true ∧ r.parent = (k.sched.task k.sched.currentTask).limits ∧
      ∃ i, r.child = (k'.sched.task (.slot i)).limits ∧ r.child.pid = k.sched.pidCounter := by
  unfold newForks at hr
  split at hr
  · rename_i hforks
    obtain ⟨i, hi, rfl⟩ := mem_map.mp hr
    have hi := (mem_filter.mp hi).2
    rw [Bool.and_eq_true, beq_iff_eq] at hi
    exact ⟨hforks, rfl, i, rfl, hi.2⟩
  · cases hr

namespace Lineage

variable {L : Layout} {st st' : Traced} {e : KernelEvent}

theorem init (h : (tracedSystem L).init st) : Lineage st := by
  obtain ⟨⟨pageDirectory, hsched, -⟩, hforks⟩ := h
  refine ⟨hsched ▸ fits_taskInit _, ?_, ?_, ?_, ?_, ?_⟩ <;> rw [hforks] <;> nofun

theorem step (h : Lineage st) (hallowed : (tracedSystem L).allowed st e) (himg : e.ImagesOk)
    (hstep : (tracedSystem L).step st e = some st') : Lineage st' := by
  obtain ⟨k, hk, rfl⟩ := Option.map_eq_some_iff.mp hstep
  have he := evolves_apply L h.fits hallowed himg k hk
  obtain ⟨i, hnew⟩ := h.fits.isNew he
  have hle := he.pidCounter
  -- a new record: the parent is the running task, the child is new
  have hrec : ∀ r ∈ newForks st.kernel k e,
      r.parent.pid < st.kernel.sched.pidCounter ∧ r.child.pid = st.kernel.sched.pidCounter ∧
        st.kernel.sched.pidCounter < k.sched.pidCounter ∧ Restricted r.parent r.child ∧
        r.child = (k.sched.task (.slot i)).limits := by
    intro r hr
    obtain ⟨hforks, hparent, j, hchild, hpid⟩ := mem_newForks hr
    obtain ⟨hj, hisNew⟩ := hnew (.slot j) (hchild ▸ hpid)
    refine ⟨hparent ▸ h.fits.pid _, hpid, hisNew.pidCounter, ?_, hj ▸ hchild⟩
    have hlimits := hisNew.limits
    rw [KernelEvent.Admits, if_pos hforks] at hlimits
    rw [hparent, hchild]
    exact hlimits
  refine ⟨h.fits.evolves he, fun r hr => ?_, fun r hr => ?_, fun r hr => ?_, fun r hr t ht => ?_,
    fun r hr r' hr' hpid => ?_⟩
  · rcases mem_append.mp hr with hr | hr
    · exact (hrec r hr).1.trans_le hle
    · exact (h.parent r hr).trans_le hle
  · rcases mem_append.mp hr with hr | hr
    · obtain ⟨-, hpid, hlt, -, -⟩ := hrec r hr
      exact hpid ▸ ⟨h.fits.pos, hlt⟩
    · exact ⟨(h.child r hr).1, (h.child r hr).2.trans_le hle⟩
  · rcases mem_append.mp hr with hr | hr
    · exact (hrec r hr).2.2.2.1
    · exact h.restricted r hr
  · rcases mem_append.mp hr with hr | hr
    · obtain ⟨-, hpid, -, -, hchild⟩ := hrec r hr
      rw [hchild, (hnew t (ht.trans hpid)).1]
    · have hsame := he.limits_eq (h.child r hr).1 (h.child r hr).2 ht
      exact hsame.trans (h.alive r hr t (hsame ▸ ht))
  · rcases mem_append.mp hr with hr | hr
    · -- nobody has forked with an identity that was not given yet
      have hparent : r'.parent.pid < st.kernel.sched.pidCounter := by
        rcases mem_append.mp hr' with hr' | hr'
        · exact (hrec r' hr').1
        · exact h.parent r' hr'
      rw [hpid, (hrec r hr).2.1] at hparent
      exact absurd hparent (lt_irrefl _)
    · rcases mem_append.mp hr' with hr' | hr'
      · obtain ⟨-, hparent, -⟩ := mem_newForks hr'
        rw [hparent] at hpid ⊢
        exact h.alive r hr _ hpid
      · exact h.forked r hr r' hr' hpid

/-- **Restriction is inherited over any number of generations.** -/
theorem descends (h : Lineage st) {a d : Limits} (hd : Descends st.forks a d) :
    Restricted a d ∧ ∃ r ∈ st.forks, r.child = d := by
  induction hd with
  | child hr hparent => exact ⟨hparent ▸ h.restricted _ hr, _, hr, rfl⟩
  | @step b r _ hr hpid ih =>
    obtain ⟨hab, r0, hr0, rfl⟩ := ih
    have hparent := h.forked r0 hr0 r hr hpid
    exact ⟨hab.trans (hparent ▸ h.restricted r hr), r, hr, rfl⟩

end Lineage

/-- The kernel runs with images in order. -/
abbrev orderedSystem (L : Layout) : System Traced KernelEvent :=
  (tracedSystem L).restrict fun _ e => e.ImagesOk

theorem Lineage.of_reachable {L : Layout} {st : Traced} (h : (orderedSystem L).Reachable st) :
    Lineage st := by
  refine System.Reachable.invariant (S := orderedSystem L) (I := Lineage)
    (fun _ hinit => Lineage.init hinit) ?_ h
  rintro st e st' hl ⟨hallowed, himg⟩ hstep
  exact hl.step hallowed himg hstep

/-- **Sandbox monotonicity.** In every run whose images are in order, a task forked in one or
more steps is restricted against the limits its ancestor had when it forked, when it is created
and as long as it is there; and no event gives a task a capability it did not have. -/
theorem sandbox_monotone (L : Layout) {st : Traced} (h : (orderedSystem L).Reachable st) :
    (∀ a d, Descends st.forks a d → Restricted a d ∧
      ∀ t, (st.kernel.sched.task t).pid = d.pid →
        Restricted a (st.kernel.sched.task t).limits) ∧
    ∀ e st', (orderedSystem L).allowed st e → (orderedSystem L).step st e = some st' →
      ∀ t, (st.kernel.sched.task t).inUse = true → (st'.kernel.sched.task t).inUse = true →
        (st'.kernel.sched.task t).pid = (st.kernel.sched.task t).pid →
        (st'.kernel.sched.task t).caps &&& (st.kernel.sched.task t).caps =
          (st'.kernel.sched.task t).caps := by
  have hl := Lineage.of_reachable h
  refine ⟨fun a d hd => ?_, fun e st' hallowed hstep t _ huse' hpid => ?_⟩
  · obtain ⟨had, r, hr, rfl⟩ := hl.descends hd
    refine ⟨had, fun t ht => ?_⟩
    rw [hl.alive r hr t ht]
    exact had
  · obtain ⟨k, hk, rfl⟩ := Option.map_eq_some_iff.mp hstep
    obtain ⟨_, hi⟩ := (evolves_apply L hl.fits hallowed.1 hallowed.2 k hk).task
    rcases hi t with hsame | ⟨-, hgone⟩ | ⟨-, hnew⟩
    · have hcaps : (k.sched.task t).caps = (st.kernel.sched.task t).caps :=
        congrArg Limits.caps hsame
      rw [hcaps, BitVec.and_self]
    · cases huse'.symm.trans (congrArg Limits.inUse hgone)
    · exact absurd (hpid.symm.trans hnew.pid) (hl.fits.pid t).ne

/-! ## Two runs -/

/-- A `uint32_t` as bytes. -/
def bytes32 (n : ℕ) : List UInt8 :=
  [.ofNat n, .ofNat (n / 2 ^ 8), .ofNat (n / 2 ^ 16), .ofNat (n / 2 ^ 24)]

/-- An ELF file with one segment, the word `word` at `vaddr`. -/
def oneSegment (vaddr word : ℕ) : List UInt8 :=
  [0x7F, 0x45, 0x4C, 0x46, 1, 1, 1, 0, 0, 0, 0, 0, 0, 0, 0, 0,
    2, 0, 3, 0, 1, 0, 0, 0, 0, 0, 0, 1, 52, 0, 0, 0,
    0, 0, 0, 0, 0, 0, 0, 0, 52, 0, 32, 0, 1, 0, 0, 0, 0, 0, 0, 0,
    1, 0, 0, 0, 84, 0, 0, 0] ++ bytes32 vaddr ++
    [0, 0, 0, 0, 4, 0, 0, 0, 4, 0, 0, 0, 7, 0, 0, 0, 0, 0x10, 0, 0] ++ bytes32 word

/-- The address of `tasks`; the linker puts it behind the kernel's code, which starts at
`0x00100000`. -/
def tasksAddr : ℕ := 0x00200000

/-- The address of `tasks[i].caps`. -/
def capsAddr (i : Fin maxTasks) : ℕ := tasksAddr + 16612 * i.val + 16468

/-- Memory with an ELF file in a heap buffer, and the capabilities of `tasks[0]` when it is a
user task. -/
def imageMem (image : List UInt8) : Mem := fun a =>
  if 0xD0000008 ≤ a then image.getD (a - 0xD0000008) 0
  else if capsAddr 0 ≤ a then (bytes32 capUserDefault.toNat).getD (a - capsAddr 0) 0
  else 0

/-- A file with this content. -/
def imageFile (image : List UInt8) : FileRead := .image (imageMem image) 0xD0000008

/-- A word below the user range is not written to. -/
theorem wordAt_kernel {m m' : Mem} (h : Mem.SameOff userRange m m') {a : ℕ}
    (ha : a + 3 < 0x00400000) : m'.wordAt a = m.wordAt a := by
  have hbyte : ∀ n < 4, m'.byteAt (a + n) = m.byteAt (a + n) := by
    intro n hn
    unfold Mem.byteAt
    rw [h _ fun hu => ?_]
    have hlow : 0x00400000 ≤ (a + n) % 2 ^ 32 := hu.1
    rw [Nat.mod_eq_of_lt (by omega)] at hlow
    omega
  unfold Mem.wordAt Mem.halfAt
  rw [hbyte 1 (by decide), hbyte 2 (by decide), show a + 2 + 1 = a + 3 from rfl,
    hbyte 3 (by decide), show m'.byteAt a = m.byteAt a from hbyte 0 (by decide)]

theorem wordAt_capsAddr {m m' : Mem} (h : Mem.SameOff userRange m m') (i : Fin maxTasks) :
    m'.wordAt (capsAddr i) = m.wordAt (capsAddr i) := by
  refine wordAt_kernel h ?_
  have hi : i.val < 16 := i.isLt
  unfold capsAddr tasksAddr
  omega

/-- A task once its `caps` field has been written to. -/
def reloadCaps (m m' : Mem) (s : Sched) : TaskPtr → Task
  | .idle => s.task .idle
  | .slot i =>
    if m'.wordAt (capsAddr i) = m.wordAt (capsAddr i) then s.task (.slot i)
    else { s.task (.slot i) with caps := .ofNat 32 (m'.wordAt (capsAddr i)) }

/-- The `caps` fields of `tasks` lie in memory; what else is in the table is left out. -/
def capsLayout : Layout where
  reload m m' s := { s with task := reloadCaps m m' s }
  reload_same s h := by
    have htask : reloadCaps _ _ s = s.task := funext fun t => by
      cases t with
      | idle => rfl
      | slot i => exact if_pos (wordAt_capsAddr h i)
    rw [htask]

/-- The machine after `paging_init` and `task_init`. -/
def bootState : Traced where
  kernel := ⟨.taskInit 300, pagingInit ⟨300, 301, fun j => 302 + j.val⟩⟩
  forks := []

/-- A user program is started and runs. -/
def startProgram : List KernelEvent :=
  [.spawn (cstr "/mnt/prog.elf") (imageFile (oneSegment 0x01000000 0)) false, .schedule]

theorem init_bootState (L : Layout) : (tracedSystem L).init bootState := ⟨⟨300, rfl, rfl⟩, rfl⟩

/-- The machine then. -/
def programState : Traced :=
  ((tracedSystem capsLayout).run bootState startProgram).getD bootState

theorem run_startProgram :
    (tracedSystem capsLayout).run bootState startProgram = some programState := by
  obtain ⟨st, hst, -⟩ : ∃ st ∈ (tracedSystem capsLayout).run bootState startProgram, True := by
    decide +kernel
  rw [programState, hst]
  rfl

theorem run_startProgram_kernel :
    (kernelSystem capsLayout).run bootState.kernel startProgram = some programState.kernel :=
  (run_tracedSystem _ _ _).symm.trans (congrArg _ run_startProgram)

theorem imageOk_program : ImageOk (imageMem (oneSegment 0x01000000 0)) 0xD0000008 := by
  intro _ _
  refine ⟨⟨?_, ?_, ?_⟩, ?_⟩ <;> decide +kernel

theorem reachable_programState : (orderedSystem capsLayout).Reachable programState := by
  refine System.reachable_run (S := orderedSystem capsLayout) (.init (init_bootState _)) ?_
    ((System.run_restrict _ _).trans run_startProgram)
  exact ⟨⟨trivial, imageOk_program⟩, fun _ _ => ⟨⟨trivial, trivial⟩, fun _ _ => trivial⟩⟩

theorem currentTask_programState : programState.kernel.sched.currentTask = .slot 0 := by
  decide +kernel

/-- The program forks: the child, with the next identity, has what the program has. -/
theorem sandbox_monotone_fork :
    ∃ st, (orderedSystem capsLayout).Reachable st ∧
      st.forks = [⟨⟨1, true, capUserDefault, 0, 0, []⟩, ⟨2, true, capUserDefault, 0, 0, []⟩⟩] ∧
      Restricted ⟨1, true, capUserDefault, 0, 0, []⟩ ⟨2, true, capUserDefault, 0, 0, []⟩ := by
  obtain ⟨st, hst, hforks⟩ : ∃ st ∈ (orderedSystem capsLayout).step programState (.syscall .fork),
      st.forks = [⟨⟨1, true, capUserDefault, 0, 0, []⟩, ⟨2, true, capUserDefault, 0, 0, []⟩⟩] := by
    decide +kernel
  have hreach : (orderedSystem capsLayout).Reachable st := by
    refine reachable_programState.step (e := .syscall .fork) ⟨?_, trivial⟩ hst
    change programState.kernel.sched.currentTask ≠ .idle
    rw [currentTask_programState]
    nofun
  refine ⟨st, hreach, hforks, ((sandbox_monotone capsLayout hreach).1 _ _ ?_).1⟩
  rw [hforks]
  exact .child (r := ⟨_, _⟩) (mem_singleton.mpr rfl) rfl

/-- **A user task executes a file that stays a user's**: only its address space changes, and what
the image has made of the process table. -/
theorem exists_exec {L : Layout} {k : Kernel} {path : CStr} {mem : Mem} {data : ℕ}
    {limits : Limits} (hcur : k.sched.currentTask = .slot 0)
    (hroot : (k.sched.task (.slot 0)).rootPath = [])
    (htier : elfAssignTier (resolvePath [] path Kernel.resolvedSize) = .user)
    (hload : ∃ r ∈ k.execLoaded L mem data,
      Kernel.stackReady (r.2.2.sched.task (.slot 0)).cr3 r.1 r.2.2.vm ∧
        (r.2.2.sched.task (.slot 0)).tier = .user ∧
        (r.2.2.sched.task (.slot 0)).limits = limits) :
    ∃ k', k.sysExec L path [] (.image mem data) = some (0, k') ∧
      (k'.sched.task (.slot 0)).limits = limits := by
  obtain ⟨⟨pd, entry, k1⟩, hload, hready, huser, hafter⟩ := hload
  obtain ⟨vm, pages, hexec⟩ := Kernel.sysExec_loaded hload path [] (by rw [hcur]; exact hready)
  rw [hcur, hroot, Kernel.execTier_same ?_] at hexec
  swap
  · rw [Sched.task_modify, if_pos rfl]
    exact htier.trans huser.symm
  refine ⟨_, hexec, ?_⟩
  rw [Kernel.task_loadCr3, Sched.task_modify, if_pos rfl]
  exact hafter

/-- The program executes a file whose one segment is `tasks[0].caps`, with all bits set. -/
def raiseCaps : KernelEvent :=
  .syscall (.exec (some (cstr "/evil")) [] (imageFile (oneSegment (capsAddr 0) 0xFFFFFFFF)))

/-- **An image out of order raises the capabilities of its task**: a user task has all of them
after `raiseCaps`. -/
theorem sandbox_escape :
    ∃ st st', (tracedSystem capsLayout).Reachable st ∧
      (tracedSystem capsLayout).allowed st raiseCaps ∧
      (tracedSystem capsLayout).step st raiseCaps = some st' ∧
      (st.kernel.sched.task (.slot 0)).limits = ⟨1, true, capUserDefault, 0, 0, []⟩ ∧
      (st'.kernel.sched.task (.slot 0)).limits = ⟨1, true, capSystemDefault, 0, 0, []⟩ ∧
      (st'.kernel.sched.task (.slot 0)).caps &&& (st.kernel.sched.task (.slot 0)).caps ≠
        (st'.kernel.sched.task (.slot 0)).caps := by
  have hbefore : (programState.kernel.sched.task (.slot 0)).limits =
      ⟨1, true, capUserDefault, 0, 0, []⟩ := by decide +kernel
  have hcur := currentTask_programState
  have htier : elfAssignTier (resolvePath [] (cstr "/evil") Kernel.resolvedSize) = .user := by
    decide +kernel
  obtain ⟨k2, hexec, hlimits⟩ : ∃ k2, programState.kernel.sysExec capsLayout (cstr "/evil") []
      (imageFile (oneSegment (capsAddr 0) 0xFFFFFFFF)) = some (0, k2) ∧
      (k2.sched.task (.slot 0)).limits = ⟨1, true, capSystemDefault, 0, 0, []⟩ :=
    exists_exec hcur (congrArg Limits.rootPath hbefore) htier (by decide +kernel)
  have happly : raiseCaps.apply capsLayout programState.kernel = some k2 :=
    Kernel.apply_exec (by decide +kernel) hexec
  refine ⟨programState, _, reachable_programState.of_restrict, ?_, step_tracedSystem happly,
    hbefore, hlimits, ?_⟩
  · change programState.kernel.sched.currentTask ≠ .idle
    rw [hcur]
    nofun
  · have hcaps : (programState.kernel.sched.task (.slot 0)).caps = capUserDefault :=
      congrArg Limits.caps hbefore
    have hcaps' : (k2.sched.task (.slot 0)).caps = capSystemDefault :=
      congrArg Limits.caps hlimits
    rw [hcaps, hcaps']
    decide

end PokuOS
